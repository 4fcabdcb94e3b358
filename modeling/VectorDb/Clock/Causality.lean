import VectorDb.Clock.HLC

namespace VectorDb.Common
open Lib LogicalClock

namespace HLC

def clock : LogicalClock UInt64 UInt64 := ⟨0, now, update⟩

variable {ι : Type}

def base (event : Occurrence ι UInt64 UInt64) : UInt64 :=
  match event.source with
  | none => event.before
  | some (_, remote) => max event.before remote

def Overflows (event : Occurrence ι UInt64 UInt64) : Prop :=
  event.reading ≤ getPhysicalTime (base event) ∧ Full (base event)

instance (event : Occurrence ι UInt64 UInt64) : Decidable (Overflows event) := inferInstanceAs (Decidable (_ ∧ _))

theorem before_le_base (event : Occurrence ι UInt64 UInt64) : event.before ≤ base event := by
  rw [base]
  split
  · exact UInt64.le_refl _
  · rw [max_eq]
    split
    · assumption
    · exact UInt64.le_refl _

theorem source_le_base {event : Occurrence ι UInt64 UInt64} {a : Nat} {remote : UInt64}
    (isSource : event.source = some (a, remote)) : remote ≤ base event := by
  simp only [base, isSource, max_eq]
  split
  · exact UInt64.le_refl _
  · next later => exact UInt64.le_of_lt (UInt64.not_le.mp later)

theorem base_cases (event : Occurrence ι UInt64 UInt64) :
    base event = event.before ∨ ∃ a, event.source = some (a, base event) := by
  cases isSource : event.source with
  | none => exact .inl (by simp [base, isSource])
  | some sent =>
    obtain ⟨a, remote⟩ := sent
    simp only [base, isSource, max_eq]
    split
    · exact .inr ⟨a, rfl⟩
    · exact .inl rfl

theorem stamp_eq (event : Occurrence ι UInt64 UInt64) :
    clock.stamp event.reading event.before event.source = now event.reading (base event) := by
  cases isSource : event.source with
  | none => simp [stamp, clock, base, isSource]
  | some sent => simp [stamp, clock, base, isSource, update_eq]

section WellStamped

variable {system : System ι UInt64 UInt64}

theorem timestamp_eq (recorded : WellStamped clock system) {event : Occurrence ι UInt64 UInt64}
    (member : event ∈ system.history) : event.timestamp = now event.reading (base event) :=
  (recorded.stamped event member).trans (stamp_eq event)

theorem base_recorded (recorded : WellStamped clock system) {b : Nat} {event : Occurrence ι UInt64 UInt64}
    (found : system.history[b]? = some event) :
    base event = 0 ∨ ∃ a earlier, Precedes system.history a b ∧ system.history[a]? = some earlier ∧
      earlier.timestamp = base event := by
  obtain own | ⟨a, isSource⟩ := base_cases event
  · rw [own]
    exact recorded.of_before found
  · obtain ⟨precedes, sender, isSender, isTime⟩ := recorded.of_source found isSource
    exact .inr ⟨a, sender, precedes, isSender, isTime⟩

theorem causal_of_not_overflows (recorded : WellStamped clock system)
    (small : ∀ event ∈ system.history, event.reading.toNat < 2 ^ 48)
    (room : ∀ event ∈ system.history, ¬ Overflows event) : Causal system.history := by
  refine recorded.causal fun event member => ?_
  have above : base event < event.timestamp := by
    rw [timestamp_eq recorded member]
    exact lt_now (small event member) fun behind full => room event member ⟨behind, full⟩
  exact ⟨UInt64.lt_of_le_of_lt (before_le_base event) above,
    fun _ _ isSource => UInt64.lt_of_le_of_lt (source_le_base isSource) above⟩

theorem not_overflows_of_causal (recorded : WellStamped clock system) (causal : Causal system.history) :
    ∀ event ∈ system.history, ¬ Overflows event := by
  rintro event member ⟨behind, full⟩
  have below : event.timestamp < base event := by
    rw [timestamp_eq recorded member]
    exact now_lt behind full
  obtain ⟨own, sent⟩ := recorded.advances_of_causal causal event member
  obtain isOwn | ⟨a, isSource⟩ := base_cases event
  · obtain first | above := own
    · -- A full counter is not the initial time.
      rw [isOwn, first] at full
      exact absurd full (by decide)
    · exact UInt64.lt_asymm (isOwn ▸ below) above
  · exact UInt64.lt_asymm below (sent a _ isSource)

end WellStamped

variable [DecidableEq ι]

theorem small_readings {events : List (Event ι UInt64)} {system : System ι UInt64 UInt64}
    (run : Trace (Step clock) (System.start clock) events system)
    (small : ∀ event ∈ events, event.reading.toNat < 2 ^ 48) :
    ∀ event ∈ system.history, event.reading.toNat < 2 ^ 48 := by
  intro event member
  have read := List.mem_map_of_mem (f := Occurrence.reading) member
  rw [WellStamped.readings run] at read
  obtain ⟨input, isInput, same⟩ := List.mem_map.mp read
  exact same ▸ small input isInput

theorem causal_iff_not_overflows {events : List (Event ι UInt64)} {system : System ι UInt64 UInt64}
    (run : Trace (Step clock) (System.start clock) events system)
    (small : ∀ event ∈ events, event.reading.toNat < 2 ^ 48) :
    Causal system.history ↔ ∀ event ∈ system.history, ¬ Overflows event :=
  ⟨not_overflows_of_causal (.of_trace run), causal_of_not_overflows (.of_trace run) (small_readings run small)⟩

theorem causal_after_message :
    ∃ system : System Bool UInt64 UInt64,
      Trace (Step clock) (System.start clock) [.now false 5, .update true 3 0] system ∧ Causal system.history := by
  have run : Trace (Step clock) (System.start clock) [.now false 5, .update true 3 0] _ :=
    (Trace.nil.snoc rfl).snoc ⟨_, rfl, by decide, rfl⟩
  exact ⟨_, run, (causal_iff_not_overflows run (by decide)).mpr (by decide)⟩

theorem stalled (n : Nat) : ∃ system : System Unit UInt64 UInt64,
    Trace (Step clock) (System.start clock) (List.replicate n (.now () 1)) system ∧
      system.clock () = (now 1)^[n] 0 := by
  induction n with
  | zero => exact ⟨_, .nil, rfl⟩
  | succ n ih =>
    obtain ⟨system, run, time⟩ := ih
    rw [List.replicate_succ']
    refine ⟨_, run.snoc rfl, ?_⟩
    rw [Function.iterate_succ_apply', ← time]
    rfl

private theorem physical_one {time : UInt64} {n : Nat} (is : time.toNat = 2 ^ 16 + n) :
    1 ≤ getPhysicalTime time := by
  rw [UInt64.le_iff_toNat_le, toNat_getPhysicalTime, is]
  simp

theorem stalled_time (n : Nat) (room : n < 2 ^ 16) : ((now 1)^[n + 1] 0).toNat = 2 ^ 16 + n := by
  induction n with
  | zero => decide
  | succ n ih =>
    have before := ih (by omega)
    rw [Function.iterate_succ_apply']
    generalize (now 1)^[n + 1] 0 = time at before
    have notFull : ¬ Full time := by
      rw [full_iff]
      omega
    rw [now_eq, if_neg (UInt64.not_lt.mpr (physical_one before)), toNat_tick, if_neg notFull]
    omega

/-- After 2 ^ 16 events in one microsecond the next timestamp goes back to where they began. -/
theorem stalled_clock_overflows :
    ¬ ∀ (events : List (Event Unit UInt64)) (system : System Unit UInt64 UInt64),
      Trace (Step clock) (System.start clock) events system →
      (∀ event ∈ events, event.reading.toNat < 2 ^ 48) → Causal system.history := by
  intro causal
  obtain ⟨system, run, time⟩ := stalled (2 ^ 16 - 1 + 1)
  have last : (system.clock ()).toNat = 2 ^ 16 + (2 ^ 16 - 1) := by
    rw [time]
    exact stalled_time _ (by decide)
  have next : Trace (Step clock) (System.start clock) (List.replicate (2 ^ 16 - 1 + 1) (.now () 1) ++ [.now () 1])
      (system.record (system.occurrence clock () 1 none)) := run.snoc rfl
  refine not_overflows_of_causal (.of_trace next) (causal _ _ next ?_) (system.occurrence clock () 1 none)
    (by simp [System.record]) ⟨physical_one last, ?_⟩
  · intro event member
    rw [← List.replicate_succ', List.mem_replicate] at member
    rw [member.2]
    decide
  · change Full (system.clock ())
    rw [full_iff, last]
    decide

section Closeness

variable {system : System ι UInt64 UInt64}

omit [DecidableEq ι]

theorem base_counter (recorded : WellStamped clock system)
    (small : ∀ event ∈ system.history, event.reading.toNat < 2 ^ 48) (few : system.history.length < 2 ^ 16 - 1)
    (b : Nat) (event : Occurrence ι UInt64 UInt64) (found : system.history[b]? = some event) :
    (getLogicalTime (base event)).toNat ≤ b := by
  induction b using Nat.strong_induction_on generalizing event with
  | _ b ih =>
    obtain first | ⟨a, earlier, precedes, isEarlier, isTime⟩ := base_recorded recorded found
    · simp [first, toNat_getLogicalTime]
    · have lt : a < b := precedes.1
      have inside := (List.getElem?_eq_some_iff.mp found).1
      have member := List.mem_of_getElem? isEarlier
      have below := ih a lt earlier isEarlier
      have room : (getLogicalTime (base earlier)).toNat < 2 ^ 16 - 1 := by omega
      have next := (now_parts (small earlier member) room).2
      rw [← timestamp_eq recorded member, isTime] at next
      omega

variable (recorded : WellStamped clock system) (small : ∀ event ∈ system.history, event.reading.toNat < 2 ^ 48)
  (few : system.history.length < 2 ^ 16 - 1)
include recorded small few

theorem physical_eq {b : Nat} {event : Occurrence ι UInt64 UInt64} (found : system.history[b]? = some event) :
    getPhysicalTime event.timestamp = max event.reading (getPhysicalTime (base event)) := by
  have member := List.mem_of_getElem? found
  have inside := (List.getElem?_eq_some_iff.mp found).1
  have counter := base_counter recorded small few b event found
  rw [timestamp_eq recorded member]
  exact (now_parts (small event member) (by omega)).1

theorem few_causal : Causal system.history := by
  refine causal_of_not_overflows recorded small ?_
  rintro event member ⟨-, full⟩
  obtain ⟨b, found⟩ := List.getElem?_of_mem member
  have inside := (List.getElem?_eq_some_iff.mp found).1
  have counter := base_counter recorded small few b event found
  rw [full.1] at counter
  simp at counter
  omega

theorem reading_le_physical {a b : Nat} (past : CausalPast system.history a b)
    {earlier event : Occurrence ι UInt64 UInt64} (isEarlier : system.history[a]? = some earlier)
    (found : system.history[b]? = some event) : earlier.reading ≤ getPhysicalTime event.timestamp := by
  induction past generalizing event with
  | refl =>
    obtain rfl : earlier = event := by simpa [isEarlier] using found
    rw [physical_eq recorded small few found, max_eq]
    split
    · assumption
    · exact UInt64.le_refl _
  | tail _ precedes ih =>
    have ⟨_, middle, _, isMiddle, _⟩ := precedes
    have later := few_causal recorded small few _ _ _ _ (.single precedes) isMiddle found
    refine UInt64.le_trans (ih isMiddle) ?_
    rw [UInt64.le_iff_toNat_le, toNat_getPhysicalTime, toNat_getPhysicalTime]
    exact Nat.div_le_div_right (UInt64.le_of_lt later)

theorem physical_taken (b : Nat) (event : Occurrence ι UInt64 UInt64) (found : system.history[b]? = some event) :
    ∃ a earlier, CausalPast system.history a b ∧ system.history[a]? = some earlier ∧
      earlier.reading = getPhysicalTime event.timestamp := by
  induction b using Nat.strong_induction_on generalizing event with
  | _ b ih =>
    have physical := physical_eq recorded small few found
    by_cases behind : event.reading ≤ getPhysicalTime (base event)
    · rw [max_eq, if_pos behind] at physical
      obtain first | ⟨a, previous, precedes, isPrevious, isTime⟩ := base_recorded recorded found
      · rw [first] at behind physical
        rw [physical]
        exact ⟨b, event, .refl, found, UInt64.le_antisymm behind (by simp [getPhysicalTime])⟩
      · obtain ⟨c, earlier, past, isEarlier, same⟩ := ih a precedes.1 previous isPrevious
        exact ⟨c, earlier, past.tail precedes, isEarlier, by rw [same, isTime, physical]⟩
    · rw [max_eq, if_neg behind] at physical
      exact ⟨b, event, .refl, found, physical.symm⟩

end Closeness

theorem physical_is_latest_reading {events : List (Event ι UInt64)} {system : System ι UInt64 UInt64}
    (run : Trace (Step clock) (System.start clock) events system)
    (small : ∀ event ∈ events, event.reading.toNat < 2 ^ 48) (few : events.length < 65535)
    (b : Nat) (event : Occurrence ι UInt64 UInt64) (found : system.history[b]? = some event) :
    IsGreatest {reading | ∃ a earlier, CausalPast system.history a b ∧ system.history[a]? = some earlier ∧
      earlier.reading = reading} (getPhysicalTime event.timestamp) := by
  have recorded := WellStamped.of_trace run
  have small := small_readings run small
  have few : system.history.length < 2 ^ 16 - 1 := by
    have same := congrArg List.length (WellStamped.readings run)
    simp only [List.length_map] at same
    omega
  refine ⟨physical_taken recorded small few b event found, ?_⟩
  rintro reading ⟨a, earlier, past, isEarlier, rfl⟩
  exact reading_le_physical recorded small few past isEarlier found

theorem physical_is_senders_reading :
    ∃ (system : System Bool UInt64 UInt64) (event : Occurrence Bool UInt64 UInt64),
      Trace (Step clock) (System.start clock) [.now false 5, .update true 3 0] system ∧
      system.history[1]? = some event ∧ getPhysicalTime event.timestamp = 5 ∧
      IsGreatest {reading | ∃ a earlier, CausalPast system.history a 1 ∧ system.history[a]? = some earlier ∧
        earlier.reading = reading} (getPhysicalTime event.timestamp) := by
  have run : Trace (Step clock) (System.start clock) [.now false 5, .update true 3 0] _ :=
    (Trace.nil.snoc rfl).snoc ⟨_, rfl, by decide, rfl⟩
  exact ⟨_, _, run, rfl, by decide, physical_is_latest_reading run (by decide) (by decide) 1 _ rfl⟩

end HLC

end VectorDb.Common
