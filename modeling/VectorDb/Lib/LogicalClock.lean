import VectorDb.Lib.Trace

namespace VectorDb.Lib

/-- A logical clock: the time it starts with, and its time after a local event and after the
receipt of a timestamp, from the reading taken there. -/
structure LogicalClock (ρ τ : Type) where
  initial : τ
  now : ρ → τ → τ
  update : ρ → τ → τ → τ

namespace LogicalClock

variable {ι ρ τ : Type}

inductive Event (ι ρ : Type) where
  | now (node : ι) (reading : ρ)
  | update (node : ι) (reading : ρ) (sent : Nat)

def Event.reading : Event ι ρ → ρ
  | now _ reading | update _ reading _ => reading

structure Occurrence (ι ρ τ : Type) where
  node : ι
  reading : ρ
  before : τ
  /-- The event that sent the received timestamp, and the timestamp. -/
  source : Option (Nat × τ)
  timestamp : τ

structure System (ι ρ τ : Type) where
  clock : ι → τ
  history : List (Occurrence ι ρ τ)

section Causality

variable (history : List (Occurrence ι ρ τ))

def Precedes (a b : Nat) : Prop :=
  a < b ∧ ∃ first second, history[a]? = some first ∧ history[b]? = some second ∧
    (first.node = second.node ∨ second.source.map Prod.fst = some a)

def HappensBefore : Nat → Nat → Prop := Relation.TransGen (Precedes history)

def CausalPast : Nat → Nat → Prop := Relation.ReflTransGen (Precedes history)

def Causal [LT τ] : Prop :=
  ∀ a b first second, HappensBefore history a b → history[a]? = some first → history[b]? = some second →
    first.timestamp < second.timestamp

def Latest (initial : τ) (b : Nat) (node : ι) (time : τ) : Prop :=
  (time = initial ∧ ∀ a < b, ∀ event, history[a]? = some event → event.node ≠ node) ∨
  ∃ a < b, ∃ event, history[a]? = some event ∧ event.node = node ∧ event.timestamp = time ∧
    ∀ c, a < c → c < b → ∀ other, history[c]? = some other → other.node ≠ node

end Causality

variable (clock : LogicalClock ρ τ)

def stamp (reading : ρ) (before : τ) : Option (Nat × τ) → τ
  | none => clock.now reading before
  | some (_, remote) => clock.update reading remote before

section Run

variable [DecidableEq ι]

def System.start : System ι ρ τ := ⟨fun _ => clock.initial, []⟩

def System.occurrence (system : System ι ρ τ) (node : ι) (reading : ρ) (source : Option (Nat × τ)) :
    Occurrence ι ρ τ :=
  ⟨node, reading, system.clock node, source, clock.stamp reading (system.clock node) source⟩

def System.record (system : System ι ρ τ) (event : Occurrence ι ρ τ) : System ι ρ τ :=
  ⟨Function.update system.clock event.node event.timestamp, system.history ++ [event]⟩

def Step (system : System ι ρ τ) : Event ι ρ → System ι ρ τ → Prop
  | .now node reading, after => after = system.record (system.occurrence clock node reading none)
  | .update node reading sent, after => ∃ event, system.history[sent]? = some event ∧ event.node ≠ node ∧
      after = system.record (system.occurrence clock node reading (some (sent, event.timestamp)))

end Run

structure WellStamped (system : System ι ρ τ) : Prop where
  stamped : ∀ event ∈ system.history, event.timestamp = clock.stamp event.reading event.before event.source
  latest : ∀ node, Latest system.history clock.initial system.history.length node (system.clock node)
  before : ∀ (b : Nat) (event : Occurrence ι ρ τ), system.history[b]? = some event →
    Latest system.history clock.initial b event.node event.before
  sent : ∀ (b : Nat) (event : Occurrence ι ρ τ), system.history[b]? = some event →
    ∀ a remote, event.source = some (a, remote) → a < b ∧ ∃ sender : Occurrence ι ρ τ,
      system.history[a]? = some sender ∧ sender.timestamp = remote

variable {clock}

theorem getElem?_snoc {α : Type} {l : List α} {x y : α} {b : Nat} (found : (l ++ [x])[b]? = some y) :
    b < l.length ∧ l[b]? = some y ∨ b = l.length ∧ y = x := by
  obtain inside | rfl | outside := lt_trichotomy b l.length
  · rw [List.getElem?_append_left inside] at found
    exact .inl ⟨inside, found⟩
  · simp at found
    exact .inr ⟨rfl, found.symm⟩
  · rw [List.getElem?_eq_none (by simpa using outside)] at found
    cases found

theorem Latest.snoc {history : List (Occurrence ι ρ τ)} {initial time : τ} {b : Nat} {node : ι}
    (latest : Latest history initial b node time) (inside : b ≤ history.length) (event : Occurrence ι ρ τ) :
    Latest (history ++ [event]) initial b node time := by
  have same : ∀ c < b, (history ++ [event])[c]? = history[c]? := fun c lt =>
    List.getElem?_append_left (lt.trans_le inside)
  obtain ⟨first, unseen⟩ | ⟨a, lt, last, found, isNode, isTime, after⟩ := latest
  · exact .inl ⟨first, fun a lt => by rw [same a lt]; exact unseen a lt⟩
  · refine .inr ⟨a, lt, last, by rwa [same a lt], isNode, isTime, fun c gt lt => ?_⟩
    rw [same c lt]
    exact after c gt lt

theorem Latest.skip {history : List (Occurrence ι ρ τ)} {initial time : τ} {node : ι}
    (latest : Latest history initial history.length node time) {event : Occurrence ι ρ τ}
    (other : event.node ≠ node) :
    Latest (history ++ [event]) initial (history.length + 1) node time := by
  obtain ⟨first, unseen⟩ | ⟨a, lt, last, found, isNode, isTime, after⟩ := latest
  · refine .inl ⟨first, fun a _ seen found => ?_⟩
    obtain ⟨inside, old⟩ | ⟨rfl, rfl⟩ := getElem?_snoc found
    · exact unseen a inside seen old
    · exact other
  · have kept : (history ++ [event])[a]? = some last := by rwa [List.getElem?_append_left lt]
    refine .inr ⟨a, by omega, last, kept, isNode, isTime, fun c gt _ seen found => ?_⟩
    obtain ⟨inside, old⟩ | ⟨rfl, rfl⟩ := getElem?_snoc found
    · exact after c gt inside seen old
    · exact other

namespace WellStamped

theorem start : WellStamped clock (System.start clock : System ι ρ τ) where
  stamped := by simp [System.start]
  latest node := .inl ⟨rfl, by simp [System.start]⟩
  before := by simp [System.start]
  sent := by simp [System.start]

variable [DecidableEq ι] {system after : System ι ρ τ}

theorem occur (recorded : WellStamped clock system) (node : ι) (reading : ρ) (source : Option (Nat × τ))
    (sent : ∀ a remote, source = some (a, remote) →
      ∃ sender : Occurrence ι ρ τ, system.history[a]? = some sender ∧ sender.timestamp = remote) :
    WellStamped clock (system.record (system.occurrence clock node reading source)) := by
  have length : (system.record (system.occurrence clock node reading source)).history.length =
      system.history.length + 1 := List.length_append
  refine ⟨?_, ?_, ?_, ?_⟩
  · exact List.forall_mem_append.mpr ⟨recorded.stamped, by simp [System.occurrence]⟩
  · intro other
    rw [length]
    by_cases same : node = other
    · exact .inr ⟨system.history.length, Nat.lt_succ_self _, _, List.getElem?_concat_length, same,
        by simp [System.record, System.occurrence, same], fun c gt lt => absurd gt (by omega)⟩
    · have kept : (system.record (system.occurrence clock node reading source)).clock other = system.clock other :=
        Function.update_of_ne (Ne.symm same) _ _
      rw [kept]
      exact (recorded.latest other).skip same
  · intro b event found
    obtain ⟨inside, old⟩ | ⟨rfl, rfl⟩ := getElem?_snoc found
    · exact (recorded.before b event old).snoc inside.le _
    · exact (recorded.latest node).snoc le_rfl _
  · intro b event found a remote isSource
    obtain ⟨inside, old⟩ | ⟨rfl, rfl⟩ := getElem?_snoc found
    · obtain ⟨lt, sender, isSender, isTime⟩ := recorded.sent b event old a remote isSource
      exact ⟨lt, sender, by rwa [System.record, List.getElem?_append_left (lt.trans inside)], isTime⟩
    · obtain ⟨sender, isSender, isTime⟩ := sent a remote isSource
      obtain ⟨lt, -⟩ := List.getElem?_eq_some_iff.mp isSender
      exact ⟨lt, sender, by rwa [System.record, List.getElem?_append_left lt], isTime⟩

theorem step (recorded : WellStamped clock system) {event : Event ι ρ} (next : Step clock system event after) :
    WellStamped clock after := by
  cases event with
  | now node reading =>
    cases next
    exact recorded.occur node reading none (by simp)
  | update node reading sent =>
    obtain ⟨sender, found, -, rfl⟩ := next
    refine recorded.occur node reading _ ?_
    rintro a remote ⟨⟩
    exact ⟨sender, found, rfl⟩

theorem of_trace {events : List (Event ι ρ)} (run : Trace (Step clock) (System.start clock) events system) :
    WellStamped clock system :=
  run.induct (P := fun _ => WellStamped clock) start fun _ _ _ _ _ recorded next => recorded.step next

theorem readings {events : List (Event ι ρ)} (run : Trace (Step clock) (System.start clock) events system) :
    system.history.map Occurrence.reading = events.map Event.reading := by
  refine run.induct (P := fun events (system : System ι ρ τ) =>
    system.history.map Occurrence.reading = events.map Event.reading) rfl ?_
  intro events before event after _ same next
  cases event with
  | now node reading =>
    cases next
    simp [System.record, System.occurrence, same, Event.reading]
  | update node reading sent =>
    obtain ⟨sender, -, -, rfl⟩ := next
    simp [System.record, System.occurrence, same, Event.reading]

omit [DecidableEq ι]

variable {b : Nat} {event : Occurrence ι ρ τ}

theorem of_before (recorded : WellStamped clock system) (found : system.history[b]? = some event) :
    event.before = clock.initial ∨ ∃ a previous, Precedes system.history a b ∧
      system.history[a]? = some previous ∧ previous.timestamp = event.before := by
  obtain ⟨first, -⟩ | ⟨a, lt, previous, isPrevious, isNode, isTime, -⟩ := recorded.before b event found
  · exact .inl first
  · exact .inr ⟨a, previous, ⟨lt, previous, event, isPrevious, found, .inl isNode⟩, isPrevious, isTime⟩

theorem of_source (recorded : WellStamped clock system) (found : system.history[b]? = some event) {a : Nat} {remote : τ}
    (isSource : event.source = some (a, remote)) :
    Precedes system.history a b ∧ ∃ sender, system.history[a]? = some sender ∧ sender.timestamp = remote := by
  obtain ⟨lt, sender, isSender, isTime⟩ := recorded.sent b event found a remote isSource
  exact ⟨⟨lt, sender, event, isSender, found, .inr (by simp [isSource])⟩, sender, isSender, isTime⟩

section Order

variable [LT τ] [IsTrans τ (· < ·)]

theorem causal (recorded : WellStamped clock system)
    (advances : ∀ event ∈ system.history, event.before < event.timestamp ∧
      ∀ a remote, event.source = some (a, remote) → remote < event.timestamp) : Causal system.history := by
  have direct : ∀ b a first second, Precedes system.history a b → system.history[a]? = some first →
      system.history[b]? = some second → first.timestamp < second.timestamp := by
    intro b
    induction b using Nat.strong_induction_on with
    | _ b ih =>
      intro a first second precedes isFirst isSecond
      obtain ⟨above, aboveSource⟩ := advances second (List.mem_of_getElem? isSecond)
      obtain ⟨lt, first', second', isFirst', isSecond', related⟩ := precedes
      obtain rfl : first' = first := by simpa [isFirst] using isFirst'.symm
      obtain rfl : second' = second := by simpa [isSecond] using isSecond'.symm
      obtain sameNode | isSource := related
      · -- An earlier event of the node is its last one, or precedes that.
        obtain ⟨-, unseen⟩ | ⟨p, _, last, isLast, lastNode, lastTime, after⟩ := recorded.before b _ isSecond
        · exact absurd sameNode (unseen a lt _ isFirst)
        · obtain before | rfl | behind := lt_trichotomy a p
          · have onNode : Precedes system.history a p :=
              ⟨before, _, last, isFirst, isLast, .inl (by rw [sameNode, lastNode])⟩
            have earlier := ih p (by omega) a _ last onNode isFirst isLast
            exact trans_of (· < ·) earlier (lastTime ▸ above)
          · obtain rfl : last = first' := by simpa [isFirst] using isLast.symm
            exact lastTime ▸ above
          · exact absurd sameNode (after a behind lt _ isFirst)
      · obtain ⟨⟨k, remote⟩, isPair, rfl⟩ := Option.map_eq_some_iff.mp isSource
        obtain ⟨-, sender, isSender, isTime⟩ := recorded.sent b _ isSecond _ _ isPair
        obtain rfl : sender = first' := by simpa [isFirst] using isSender.symm
        exact isTime ▸ aboveSource _ _ isPair
  intro a b first second before isFirst isSecond
  induction before generalizing second with
  | single precedes => exact direct _ _ _ _ precedes isFirst isSecond
  | tail _ precedes ih =>
    have ⟨_, middle, _, isMiddle, _⟩ := precedes
    exact trans_of (· < ·) (ih middle isMiddle) (direct _ _ _ _ precedes isMiddle isSecond)

omit [IsTrans τ (· < ·)] in
theorem advances_of_causal (recorded : WellStamped clock system) (causal : Causal system.history) :
    ∀ event ∈ system.history, (event.before = clock.initial ∨ event.before < event.timestamp) ∧
      ∀ a remote, event.source = some (a, remote) → remote < event.timestamp := by
  intro event member
  obtain ⟨b, found⟩ := List.getElem?_of_mem member
  constructor
  · obtain first | ⟨a, previous, precedes, isPrevious, isTime⟩ := recorded.of_before found
    · exact .inl first
    · exact .inr (isTime ▸ causal a b previous event (.single precedes) isPrevious found)
  · intro a remote isSource
    obtain ⟨precedes, sender, isSender, isTime⟩ := recorded.of_source found isSource
    exact isTime ▸ causal a b sender event (.single precedes) isSender found

end Order

end WellStamped

end LogicalClock

end VectorDb.Lib
