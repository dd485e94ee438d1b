import RingLwe.Proofs.Random

/-!
# Draws by rejection and their loops

A draw by rejection repeats a trial until one accepts.  As a loop it has no limit,
so that what it gives from a stream is a relation: it may give nothing at all
(`Loops`), and it gives at most one value (`Loops.unique`).

The draws of a stream stop after a number of trials and settle for a default
(`settle`).  They give what the loop gives if it ends within that number
(`Agrees.settle`), and their default if all of the trials are refused.  If the
loop ends at all, these are the two cases (`Agrees.settle_cases`).

Numbers below a range are such draws (`below_cases`, `below32_cases`).  The trial
of a sample draws a number by rejection itself, so that its loop has a loop inside.
Where the loops end within their numbers of trials, the loops without limits give
exactly what is drawn (`sample_iff_of_ends`, `samples_iff_of_ends`).
-/

set_option autoImplicit false

namespace RingLwe

namespace Stream

variable {α β : Type}

/-! ## Relations -/

/-- What can be drawn from a stream, and the stream that it leaves. -/
abbrev Yields (α : Type) : Type :=
  Stream → α → Stream → Prop

/-- What a draw gives. -/
def yields (draw : Draw α) : Yields α := fun stream value rest =>
  draw.run stream = (value, rest)

/-- What is drawn after the value of another draw. -/
def Yields.andThen (first : Yields α) (next : α → Yields β) : Yields β := fun stream result rest =>
  ∃ value middle, first stream value middle ∧ next value middle result rest

/-- Values that are drawn one after the other. -/
inductive Yields.Times (draw : Yields α) : Nat → Stream → List α → Stream → Prop
  | none {stream : Stream} : Times draw 0 stream [] stream
  | more {count : Nat} {stream middle rest : Stream} {value : α} {values : List α} :
      draw stream value middle → Times draw count middle values rest →
        Times draw (count + 1) stream (value :: values) rest

/-- Whether a relation leaves no choice. -/
def Yields.Unique (draw : Yields α) : Prop :=
  ∀ stream value rest other otherRest, draw stream value rest → draw stream other otherRest →
    value = other ∧ rest = otherRest

theorem unique_yields (draw : Draw α) : (yields draw).Unique := by
  intro stream value rest other otherRest first second
  exact Prod.mk.inj (first.symm.trans second)

theorem Yields.Unique.andThen {first : Yields α} {next : α → Yields β} (firstUnique : first.Unique)
    (nextUnique : ∀ value, (next value).Unique) : (first.andThen next).Unique := by
  rintro stream result rest other otherRest ⟨value, middle, drawn, after⟩ ⟨_, _, again, afterwards⟩
  obtain ⟨rfl, rfl⟩ := firstUnique _ _ _ _ _ drawn again
  exact nextUnique value _ _ _ _ _ after afterwards

theorem Yields.Times.mono {draw other : Yields α}
    (weaker : ∀ stream value rest, draw stream value rest → other stream value rest) {count : Nat}
    {stream rest : Stream} {values : List α} (drawn : draw.Times count stream values rest) :
    other.Times count stream values rest := by
  induction drawn with
  | none => exact .none
  | more first _ ih => exact .more (weaker _ _ _ first) ih

theorem Yields.Unique.times {draw : Yields α} (unique : draw.Unique) (count : Nat) :
    Unique (draw.Times count) := by
  intro stream values rest other otherRest drawn again
  induction drawn generalizing other with
  | none =>
    cases again
    exact ⟨rfl, rfl⟩
  | more first _ ih =>
    cases again with
    | more firstAgain later =>
      obtain ⟨rfl, rfl⟩ := unique _ _ _ _ _ first firstAgain
      obtain ⟨rfl, rfl⟩ := ih _ later
      exact ⟨rfl, rfl⟩

theorem Yields.andThen_mono {first other : Yields α} {next : α → Yields β}
    (weaker : ∀ stream value rest, first stream value rest → other stream value rest)
    {stream rest : Stream} {result : β} (drawn : first.andThen next stream result rest) :
    other.andThen next stream result rest := by
  obtain ⟨value, middle, here, after⟩ := drawn
  exact ⟨value, middle, weaker _ _ _ here, after⟩

/-! ## Loops -/

/-- Trials from a stream of which the given number is refused and the next one is accepted. -/
inductive Accepts (trial : Yields (Option α)) : Nat → Stream → α → Stream → Prop
  | accepted {stream rest : Stream} {value : α} :
      trial stream (some value) rest → Accepts trial 0 stream value rest
  | refused {before : Nat} {stream middle rest : Stream} {value : α} :
      trial stream none middle → Accepts trial before middle value rest →
        Accepts trial (before + 1) stream value rest

/-- Trials from a stream all of which are refused. -/
inductive Refuses (trial : Yields (Option α)) : Nat → Stream → Stream → Prop
  | none {stream : Stream} : Refuses trial 0 stream stream
  | more {count : Nat} {stream middle rest : Stream} :
      trial stream Option.none middle → Refuses trial count middle rest →
        Refuses trial (count + 1) stream rest

/-- What trials give that go on until one accepts, if it is among the first ones of the given
number. -/
def Loops (limit : ℕ∞) (trial : Yields (Option α)) : Yields α := fun stream value rest =>
  ∃ before : Nat, (before : ℕ∞) < limit ∧ Accepts trial before stream value rest

theorem Accepts.mono {trial other : Yields (Option α)}
    (weaker : ∀ stream result rest, trial stream result rest → other stream result rest)
    {before : Nat} {stream rest : Stream} {value : α}
    (accepts : Accepts trial before stream value rest) : Accepts other before stream value rest := by
  induction accepts with
  | accepted drawn => exact .accepted (weaker _ _ _ drawn)
  | refused drawn _ ih => exact .refused (weaker _ _ _ drawn) ih

/-- Loops with a higher limit, and with a trial that allows more, give at least as much. -/
theorem Loops.mono {limit higher : ℕ∞} (order : limit ≤ higher) {trial other : Yields (Option α)}
    (weaker : ∀ stream result rest, trial stream result rest → other stream result rest)
    {stream rest : Stream} {value : α} (loops : Loops limit trial stream value rest) :
    Loops higher other stream value rest := by
  obtain ⟨before, below, accepts⟩ := loops
  exact ⟨before, lt_of_lt_of_le below order, accepts.mono weaker⟩

theorem Accepts.unique {trial : Yields (Option α)} (unique : trial.Unique) {before : Nat}
    {stream rest : Stream} {value : α} (accepts : Accepts trial before stream value rest)
    {otherBefore : Nat} {other : α} {otherRest : Stream}
    (again : Accepts trial otherBefore stream other otherRest) :
    value = other ∧ rest = otherRest := by
  induction accepts generalizing otherBefore with
  | accepted drawn =>
    cases again with
    | accepted drawnAgain =>
      obtain ⟨same, rests⟩ := unique _ _ _ _ _ drawn drawnAgain
      exact ⟨Option.some.inj same, rests⟩
    | refused drawnAgain _ => cases (unique _ _ _ _ _ drawn drawnAgain).1
  | refused drawn _ ih =>
    cases again with
    | accepted drawnAgain => cases (unique _ _ _ _ _ drawn drawnAgain).1
    | refused drawnAgain later =>
      obtain ⟨_, rfl⟩ := unique _ _ _ _ _ drawn drawnAgain
      exact ih later

theorem Loops.unique {limit : ℕ∞} {trial : Yields (Option α)} (unique : trial.Unique) :
    (Loops limit trial).Unique := by
  rintro stream value rest other otherRest ⟨_, _, accepts⟩ ⟨_, _, again⟩
  exact accepts.unique unique again

/-- A loop that ends does so within a number of trials, or that many are refused. -/
theorem Loops.within_or_refuses {limit : ℕ∞} {trial : Yields (Option α)} {stream rest : Stream}
    {value : α} (loops : Loops limit trial stream value rest) (trials : Nat) :
    Loops trials trial stream value rest ∨ ∃ middle, Refuses trial trials stream middle := by
  obtain ⟨before, below, accepts⟩ := loops
  clear below
  induction accepts generalizing trials with
  | accepted drawn =>
    cases trials with
    | zero => exact .inr ⟨_, .none⟩
    | succ trials => exact .inl ⟨0, Nat.cast_lt.mpr (Nat.succ_pos trials), .accepted drawn⟩
  | refused drawn later ih =>
    cases trials with
    | zero => exact .inr ⟨_, .none⟩
    | succ trials =>
      rcases ih trials with ⟨before, below, accepts⟩ | ⟨middle, refuses⟩
      · exact .inl ⟨before + 1,
          Nat.cast_lt.mpr (Nat.succ_lt_succ (Nat.cast_lt.mp below)), .refused drawn accepts⟩
      · exact .inr ⟨middle, .more drawn refuses⟩

/-! ## Draws that settle -/

/-- Repeats a trial at most the given number of times, and settles for a default after that. -/
def settle (trial : Draw (Option α)) (default : α) : (trials : Nat) → Draw α
  | 0 => return default
  | trials + 1 => do
    match ← trial with
    | some value => return value
    | none => settle trial default trials

theorem run_settle (trial : Draw (Option α)) (default : α) (trials : Nat) (stream : Stream) :
    (settle trial default (trials + 1)).run stream =
      match trial.run stream with
      | (some value, rest) => (value, rest)
      | (none, rest) => (settle trial default trials).run rest := by
  change (match (trial.run stream).1 with
    | some value => (pure value : Draw α)
    | none => settle trial default trials).run (trial.run stream).2 = _
  rcases trial.run stream with ⟨_ | value, rest⟩ <;> rfl

/-- Whether a draw gives what a relation allows. -/
def Agrees (draw : Draw α) (loop : Yields α) : Prop :=
  ∀ stream value rest, loop stream value rest → yields draw stream value rest

theorem agrees_yields (draw : Draw α) : Agrees draw (yields draw) :=
  fun _ _ _ drawn => drawn

theorem Agrees.bind {draw : Draw α} {loop : Yields α} {next : α → Draw β} {after : α → Yields β}
    (first : Agrees draw loop) (rest : ∀ value, Agrees (next value) (after value)) :
    Agrees (draw >>= next) (loop.andThen after) := by
  rintro stream result final ⟨value, middle, drawn, following⟩
  have here : draw.run stream = (value, middle) := first stream value middle drawn
  have later : (next value).run middle = (result, final) := rest value middle result final following
  change (next (draw.run stream).1).run (draw.run stream).2 = (result, final)
  rw [here, later]

/-- A draw that settles gives what the loop of its trial gives, if the loop ends early enough. -/
theorem Agrees.settle {draw : Draw (Option α)} {trial : Yields (Option α)}
    (agrees : Agrees draw trial) (default : α) (trials : Nat) :
    Agrees (settle draw default trials) (Loops trials trial) := by
  rintro stream value rest ⟨before, below, accepts⟩
  replace below := Nat.cast_lt.mp below
  induction accepts generalizing trials with
  | accepted drawn =>
    obtain ⟨others, rfl⟩ := Nat.exists_eq_succ_of_ne_zero (Nat.pos_iff_ne_zero.mp below)
    rw [yields, run_settle, show draw.run _ = _ from agrees _ _ _ drawn]
  | refused drawn _ ih =>
    obtain ⟨others, rfl⟩ := Nat.exists_eq_succ_of_ne_zero (Nat.ne_zero_of_lt below)
    rw [yields, run_settle, show draw.run _ = _ from agrees _ _ _ drawn]
    exact ih others (Nat.lt_of_succ_lt_succ below)

/-- A draw settles for its default when all of its trials are refused. -/
theorem settle_of_refuses {draw : Draw (Option α)} {trial : Yields (Option α)}
    (agrees : Agrees draw trial) (default : α) {trials : Nat} {stream rest : Stream}
    (refuses : Refuses trial trials stream rest) :
    yields (settle draw default trials) stream default rest := by
  induction refuses with
  | none => rfl
  | more drawn _ ih =>
    rw [yields, run_settle, show draw.run _ = _ from agrees _ _ _ drawn]
    exact ih

/-- If the loop of a trial ends at all, the draw that settles gives its value, or all of the trials are
refused and the draw gives its default. -/
theorem Agrees.settle_cases {draw : Draw (Option α)} {trial : Yields (Option α)}
    (agrees : Agrees draw trial) (default : α) (trials : Nat) {stream rest : Stream} {value : α}
    (loops : Loops ⊤ trial stream value rest) :
    (Stream.settle draw default trials).run stream = (value, rest) ∨
      ∃ middle, Refuses trial trials stream middle ∧
        (Stream.settle draw default trials).run stream = (default, middle) := by
  rcases loops.within_or_refuses trials with early | ⟨middle, refuses⟩
  · exact .inl (agrees.settle default trials _ _ _ early)
  · exact .inr ⟨middle, refuses, settle_of_refuses agrees default refuses⟩

theorem Agrees.repeatOnto {draw : Draw α} {loop : Yields α} (agrees : Agrees draw loop) {count : Nat}
    {stream rest : Stream} {values : List α} (drawn : loop.Times count stream values rest)
    (found : List α) :
    yields (repeatOnto draw count found) stream (found.reverse ++ values) rest := by
  induction drawn generalizing found with
  | none =>
    rw [List.append_nil]
    rfl
  | @more count stream middle rest value values first _ ih =>
    have here : draw.run stream = (value, middle) := agrees _ _ _ first
    have later := ih (value :: found)
    rw [List.reverse_cons, List.append_assoc] at later
    change (Stream.repeatOnto draw count ((draw.run stream).1 :: found)).run (draw.run stream).2 = _
    rw [here]
    exact later

theorem Agrees.times {draw : Draw α} {loop : Yields α} (agrees : Agrees draw loop) (count : Nat) :
    Agrees (times count draw) (loop.Times count) :=
  fun _ _ _ drawn => agrees.repeatOnto drawn []

/-- Where loops with a limit end, loops without one give exactly what is drawn. -/
theorem Agrees.iff_of_ends {draw : Draw α} {limited loop : Yields α} (agrees : Agrees draw limited)
    (weaker : ∀ stream value rest, limited stream value rest → loop stream value rest)
    (unique : loop.Unique) {stream rest : Stream} {value : α} (ends : limited stream value rest)
    (other : α) (otherRest : Stream) :
    loop stream other otherRest ↔ draw.run stream = (other, otherRest) := by
  have drawn : draw.run stream = (value, rest) := agrees _ _ _ ends
  rw [drawn, Prod.mk.injEq]
  constructor
  · intro again
    exact unique _ _ _ _ _ (weaker _ _ _ ends) again
  · rintro ⟨rfl, rfl⟩
    exact weaker _ _ _ ends

/-! ## Numbers below a range -/

/-- One trial for a number below a range of words. -/
def trial64 (range : UInt64) : Draw (Option UInt64) := do
  let product := Wide.mul (← word64) range
  return if product.low ≤ zone64 range then some product.high else none

/-- One trial for a 32-bit number below a range. -/
def trial32 (range : UInt32) : Draw (Option UInt32) := do
  let product := (← word32).toUInt64 * range.toUInt64
  return if product.toUInt32 ≤ zone32 range then some (product >>> 32).toUInt32 else none

theorem below64_eq_settle (range : UInt64) (trials : Nat) :
    below64 range trials = settle (trial64 range) 0 trials := by
  induction trials with
  | zero => rfl
  | succ trials ih =>
    rw [below64, settle, trial64, bind_assoc]
    refine congrArg (word64 >>= ·) (funext fun word => ?_)
    dsimp only
    rw [pure_bind, ih]
    split <;> rfl

theorem below32From_eq_settle (range : UInt32) (trials : Nat) :
    below32From range trials = settle (trial32 range) 0 trials := by
  induction trials with
  | zero => rfl
  | succ trials ih =>
    rw [below32From, settle, trial32, bind_assoc]
    refine congrArg (word32 >>= ·) (funext fun word => ?_)
    dsimp only
    rw [pure_bind, ih]
    split <;> rfl

/-- The loop that draws a number below a range, with a limit on its trials. -/
def belowLoop (limit : ℕ∞) (range : UInt64) : Yields UInt64 :=
  Loops limit (yields (trial64 range))

/-- The loop that draws a 32-bit number below a range, with a limit on its trials. -/
def below32Loop (limit : ℕ∞) (range : UInt32) : Yields UInt32 :=
  Loops limit (yields (trial32 range))

/-- The loop that draws an integer between two opposite bounds, with a limit on its trials. -/
def withinLoop (limit : ℕ∞) (bound : Nat) : Yields Int :=
  (belowLoop limit (2 * bound + 1).toUInt64).andThen fun offset =>
    yields (return (offset.toNat : Int) - bound)

theorem agrees_below (range : UInt64) : Agrees (below range) (belowLoop trials range) := by
  rw [below, below64_eq_settle]
  exact (agrees_yields _).settle 0 trials

theorem agrees_below32 (range : UInt32) : Agrees (below32 range) (below32Loop trials range) := by
  rw [below32, below32From_eq_settle]
  exact (agrees_yields _).settle 0 trials

theorem agrees_within (bound : Nat) : Agrees (within bound) (withinLoop trials bound) :=
  (agrees_below _).bind fun _ => agrees_yields _

section Ranges

variable {stream rest : Stream}

/-- Where the loop for a number ends early enough, the loop without a limit gives what is drawn. -/
theorem below_iff_of_ends {range value : UInt64} (ends : belowLoop trials range stream value rest)
    (other : UInt64) (otherRest : Stream) :
    belowLoop ⊤ range stream other otherRest ↔ (below range).run stream = (other, otherRest) :=
  (agrees_below range).iff_of_ends (fun _ _ _ => Loops.mono le_top fun _ _ _ drawn => drawn)
    (Loops.unique (unique_yields _)) ends other otherRest

theorem below32_iff_of_ends {range value : UInt32}
    (ends : below32Loop trials range stream value rest) (other : UInt32) (otherRest : Stream) :
    below32Loop ⊤ range stream other otherRest ↔ (below32 range).run stream = (other, otherRest) :=
  (agrees_below32 range).iff_of_ends (fun _ _ _ => Loops.mono le_top fun _ _ _ drawn => drawn)
    (Loops.unique (unique_yields _)) ends other otherRest

/-- If the loop for a number ends at all, its number is drawn, or all of the trials are refused and
zero is. -/
theorem below_cases {range value : UInt64} (loop : belowLoop ⊤ range stream value rest) :
    (below range).run stream = (value, rest) ∨
      ∃ middle, Refuses (yields (trial64 range)) trials stream middle ∧
        (below range).run stream = (0, middle) := by
  rw [below, below64_eq_settle]
  exact (agrees_yields _).settle_cases 0 trials loop

theorem below32_cases {range value : UInt32} (loop : below32Loop ⊤ range stream value rest) :
    (below32 range).run stream = (value, rest) ∨
      ∃ middle, Refuses (yields (trial32 range)) trials stream middle ∧
        (below32 range).run stream = (0, middle) := by
  rw [below32, below32From_eq_settle]
  exact (agrees_yields _).settle_cases 0 trials loop

end Ranges

theorem withinLoop_mono {limit : ℕ∞} {bound : Nat} {stream rest : Stream} {value : Int}
    (loop : withinLoop limit bound stream value rest) : withinLoop ⊤ bound stream value rest :=
  Yields.andThen_mono (fun _ _ _ => Loops.mono le_top fun _ _ _ drawn => drawn) loop

theorem unique_withinLoop (limit : ℕ∞) (bound : Nat) : (withinLoop limit bound).Unique :=
  Yields.Unique.andThen (Loops.unique (unique_yields _)) fun _ => unique_yields _

end Stream

namespace Gaussian

open RingLwe.Stream

variable (gaussian : Gaussian)

/-- One trial for a sample. -/
def trial : Draw (Option Int) := do
  let value ← within gaussian.tailCut
  let threshold ← unitFloat
  return if threshold < gaussian.acceptance value.natAbs then some value else none

/-- One trial for a sample, with a limit on the trials for the number that it draws. -/
def trialLoop (inner : ℕ∞) : Yields (Option Int) :=
  (withinLoop inner gaussian.tailCut).andThen fun value => yields do
    let threshold ← unitFloat
    return if threshold < gaussian.acceptance value.natAbs then some value else none

/-- The loop that draws a sample, with limits on its trials and on those of each number. -/
def sampleLoop (inner limit : ℕ∞) : Yields Int :=
  Loops limit (gaussian.trialLoop inner)

theorem sampleFrom_eq_settle (trials : Nat) :
    gaussian.sampleFrom trials = settle gaussian.trial 0 trials := by
  induction trials with
  | zero => rfl
  | succ trials ih =>
    rw [sampleFrom, settle, trial, bind_assoc]
    refine congrArg (within gaussian.tailCut >>= ·) (funext fun value => ?_)
    rw [bind_assoc]
    refine congrArg (unitFloat >>= ·) (funext fun threshold => ?_)
    rw [pure_bind, ih]
    split <;> rfl

theorem agrees_trial : Agrees gaussian.trial (gaussian.trialLoop Stream.trials) :=
  (agrees_within _).bind fun _ => agrees_yields _

theorem agrees_sample : Agrees gaussian.sample (gaussian.sampleLoop Stream.trials trials) := by
  rw [sample, sampleFrom_eq_settle]
  exact gaussian.agrees_trial.settle 0 trials

theorem unique_sampleLoop (inner limit : ℕ∞) : (gaussian.sampleLoop inner limit).Unique :=
  Loops.unique (Yields.Unique.andThen (unique_withinLoop _ _) fun _ => unique_yields _)

theorem sampleLoop_mono {inner limit : ℕ∞} {stream rest : Stream} {value : Int}
    (loop : gaussian.sampleLoop inner limit stream value rest) :
    gaussian.sampleLoop ⊤ ⊤ stream value rest :=
  loop.mono le_top fun _ _ _ => Yields.andThen_mono fun _ _ _ => withinLoop_mono

section Samples

variable {gaussian} {stream rest : Stream}

/-- Where the loops for a sample end early enough, the loops without limits give what is drawn. -/
theorem sample_iff_of_ends {value : Int}
    (ends : gaussian.sampleLoop Stream.trials trials stream value rest) (other : Int)
    (otherRest : Stream) :
    gaussian.sampleLoop ⊤ ⊤ stream other otherRest ↔
      gaussian.sample.run stream = (other, otherRest) :=
  gaussian.agrees_sample.iff_of_ends (fun _ _ _ => gaussian.sampleLoop_mono)
    (gaussian.unique_sampleLoop ⊤ ⊤) ends other otherRest

/-- If the loop for a sample ends at all, and the loops for its numbers end early enough, its value
is drawn, or all of the trials are refused and zero is. -/
theorem sample_cases {value : Int}
    (loop : gaussian.sampleLoop Stream.trials ⊤ stream value rest) :
    gaussian.sample.run stream = (value, rest) ∨
      ∃ middle, Refuses (gaussian.trialLoop Stream.trials) trials stream middle ∧
        gaussian.sample.run stream = (0, middle) := by
  rw [sample, sampleFrom_eq_settle]
  exact gaussian.agrees_trial.settle_cases 0 trials loop

/-- Where the loops for all samples end early enough, the loops without limits give the samples that
are drawn. -/
theorem samples_iff_of_ends {count : Nat} {values : List Int}
    (ends : (gaussian.sampleLoop Stream.trials trials).Times count stream values rest)
    (others : List Int) (otherRest : Stream) :
    (gaussian.sampleLoop ⊤ ⊤).Times count stream others otherRest ↔
      (gaussian.samples count).run stream = (others, otherRest) :=
  (gaussian.agrees_sample.times count).iff_of_ends
    (fun _ _ _ => Yields.Times.mono fun _ _ _ => gaussian.sampleLoop_mono)
    ((gaussian.unique_sampleLoop ⊤ ⊤).times count) ends others otherRest

end Samples

end Gaussian

end RingLwe
