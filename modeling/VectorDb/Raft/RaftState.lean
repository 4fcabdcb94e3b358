import VectorDb.Common.Status
import VectorDb.Lib.Action
import VectorDb.Lib.Trace

namespace VectorDb.Raft
open Lib Common

inductive RaftRole where
  | kFollower
  | kCandidate
  | kLeader
deriving DecidableEq, Repr

structure RaftState where
  selfId : Bytes
  currentRole : RaftRole := .kFollower
  currentTerm : Nat := 0
  votedFor : Bytes := []
  leaderId : Bytes := []
  /-- Whether a callback is set, and the role changes it has been called with. -/
  onStateChange : Bool := false
  changes : List (RaftRole × RaftRole) := []
deriving DecidableEq, Repr

namespace RaftState

def setStateChangeCallback : Action Status RaftState Unit :=
  modify ({ · with onStateChange := true, changes := [] })

def notified (oldRole : RaftRole) (state : RaftState) : RaftState :=
  { state with
    changes := if state.onStateChange then state.changes ++ [(oldRole, state.currentRole)] else state.changes }

def notify (oldRole : RaftRole) : Action Status RaftState Unit := modify (notified oldRole)

def transitionToCandidate : Action Status RaftState Unit := do
  let state ← get
  if state.currentRole = .kLeader then
    throw ⟨.kInvalidArgument, text "Leader cannot transition directly to Candidate. Must StepDown first."⟩
  let oldRole := state.currentRole
  modify fun state =>
    { state with
      currentRole := .kCandidate
      currentTerm := (state.currentTerm + 1) % 2 ^ 64
      votedFor := state.selfId
      leaderId := [] }
  notify oldRole

def transitionToLeader : Action Status RaftState Unit := do
  let state ← get
  if state.currentRole ≠ .kCandidate then
    throw ⟨.kInvalidArgument, text "Only a Candidate can transition to Leader."⟩
  let oldRole := state.currentRole
  modify fun state => { state with currentRole := .kLeader, leaderId := state.selfId }
  notify oldRole

def stepDown (newTerm : Nat) (knownLeaderId : Bytes) : Action Status RaftState Unit := do
  let state ← get
  if newTerm < state.currentTerm then
    throw ⟨.kInvalidArgument, text "Cannot step down to a lower term."⟩
  let oldRole := state.currentRole
  if newTerm > state.currentTerm then
    modify ({ · with votedFor := [] })
  modify ({ · with currentRole := .kFollower, currentTerm := newTerm, leaderId := knownLeaderId })
  if oldRole ≠ .kFollower then
    notify oldRole

def grantVote (candidateId : Bytes) : Action Status RaftState Unit := do
  let state ← get
  if state.votedFor = [] ∨ state.votedFor = candidateId then
    modify ({ · with votedFor := candidateId })
  else
    throw ⟨.kAlreadyExists, text "Already voted for another candidate in this term."⟩

def loadState (term : Nat) (votedFor : Bytes) : Action Status RaftState Unit :=
  modify ({ · with currentTerm := term, votedFor := votedFor })

/-- A new object for the same node, given the term and the vote of the last one. -/
def restart : Action Status RaftState Unit := do
  let state ← get
  set { selfId := state.selfId : RaftState }
  loadState state.currentTerm state.votedFor

variable (state : RaftState)

theorem transitionToCandidate_outcome :
    transitionToCandidate.AllOrNothing state fun after =>
      after.selfId = state.selfId ∧ after.currentRole = .kCandidate ∧
        after.currentTerm = (state.currentTerm + 1) % 2 ^ 64 ∧ after.votedFor = state.selfId ∧ after.leaderId = [] := by
  by_cases leader : state.currentRole = .kLeader <;>
    simp [Action.AllOrNothing, transitionToCandidate, leader, notify, notified, bind, EStateM.bind]

theorem transitionToLeader_outcome :
    transitionToLeader.AllOrNothing state fun after =>
      state.currentRole = .kCandidate ∧ after.selfId = state.selfId ∧ after.currentRole = .kLeader ∧
        after.currentTerm = state.currentTerm ∧ after.votedFor = state.votedFor ∧ after.leaderId = state.selfId := by
  by_cases candidate : state.currentRole = .kCandidate <;>
    simp [Action.AllOrNothing, transitionToLeader, candidate, notify, notified, bind, EStateM.bind]

theorem stepDown_outcome (newTerm : Nat) (knownLeaderId : Bytes) :
    (stepDown newTerm knownLeaderId).AllOrNothing state fun after =>
      after.selfId = state.selfId ∧ after.currentRole = .kFollower ∧ after.currentTerm = newTerm ∧
        (newTerm = state.currentTerm ∧ after.votedFor = state.votedFor ∨
          state.currentTerm < newTerm ∧ after.votedFor = []) := by
  by_cases lower : newTerm < state.currentTerm
  · simp [Action.AllOrNothing, stepDown, lower, bind, EStateM.bind]
  · by_cases newer : state.currentTerm < newTerm <;> by_cases follower : state.currentRole = .kFollower <;>
      simp [Action.AllOrNothing, stepDown, lower, newer, follower, notify, notified, bind, EStateM.bind] <;> omega

theorem grantVote_outcome (candidateId : Bytes) :
    (grantVote candidateId).AllOrNothing state fun after =>
      (state.votedFor = [] ∨ state.votedFor = candidateId) ∧ after = { state with votedFor := candidateId } := by
  by_cases free : state.votedFor = [] ∨ state.votedFor = candidateId <;>
    simp [Action.AllOrNothing, grantVote, free, bind, EStateM.bind]

end RaftState

inductive Call where
  | setStateChangeCallback
  | transitionToCandidate
  | transitionToLeader
  | stepDown (newTerm : Nat) (knownLeaderId : Bytes)
  | grantVote (candidateId : Bytes)
  | restart
deriving DecidableEq, Repr

namespace Call

def action : Call → Action Status RaftState Unit
  | setStateChangeCallback => RaftState.setStateChangeCallback
  | transitionToCandidate => RaftState.transitionToCandidate
  | transitionToLeader => RaftState.transitionToLeader
  | stepDown newTerm knownLeaderId => RaftState.stepDown newTerm knownLeaderId
  | grantVote candidateId => RaftState.grantVote candidateId
  | restart => RaftState.restart

def vote (after : RaftState) : Call → Option (Nat × Bytes)
  | transitionToCandidate => some (after.currentTerm, after.selfId)
  | grantVote candidateId => some (after.currentTerm, candidateId)
  | _ => none

theorem action_error {call : Call} {state after : RaftState} {status : Status}
    (run : call.action state = .error status after) : after = state := by
  cases call with
  | setStateChangeCallback => simp [action, RaftState.setStateChangeCallback] at run
  | transitionToCandidate => exact state.transitionToCandidate_outcome.of_error run
  | transitionToLeader => exact state.transitionToLeader_outcome.of_error run
  | stepDown newTerm knownLeaderId => exact (state.stepDown_outcome newTerm knownLeaderId).of_error run
  | grantVote candidateId => exact (state.grantVote_outcome candidateId).of_error run
  | restart => simp [action, RaftState.restart, RaftState.loadState, bind, EStateM.bind] at run

end Call

structure Ballots (term : Nat) (vote : Bytes) (votes : List (Nat × Bytes)) : Prop where
  named : ∀ cast ∈ votes, cast.2 ≠ []
  past : ∀ cast ∈ votes, cast.1 ≤ term
  present : ∀ cast ∈ votes, cast.1 = term → cast.2 = vote
  unique : ∀ cast ∈ votes, ∀ other ∈ votes, cast.1 = other.1 → cast.2 = other.2

namespace Ballots

variable {term newTerm : Nat} {vote candidate : Bytes} {votes : List (Nat × Bytes)}

theorem advance (ballots : Ballots term vote votes) (newer : term < newTerm) (vote' : Bytes) :
    Ballots newTerm vote' votes where
  named := ballots.named
  past cast mem := (ballots.past cast mem).trans newer.le
  present cast mem same := absurd (ballots.past cast mem) (by omega)
  unique := ballots.unique

theorem unvoted (ballots : Ballots term vote votes) (free : vote = [] ∨ vote = candidate) :
    ∀ cast ∈ votes, cast.1 = term → cast.2 = candidate := by
  intro cast mem same
  have given := ballots.present cast mem same
  obtain none | same := free
  · exact absurd (given.trans none) (ballots.named cast mem)
  · exact given.trans same

theorem cast (ballots : Ballots term vote votes) (free : vote = [] ∨ vote = candidate) (named : candidate ≠ []) :
    Ballots term candidate (votes ++ [(term, candidate)]) := by
  have agree := ballots.unvoted free
  refine ⟨?_, ?_, ?_, ?_⟩
  · simpa [or_imp, forall_and, named] using ballots.named
  · simpa [or_imp, forall_and] using ballots.past
  · simpa [or_imp, forall_and] using agree
  · simp only [List.mem_append, List.mem_singleton]
    rintro first (old | rfl) second (old' | rfl) same
    · exact ballots.unique first old second old' same
    · exact agree first old same
    · exact (agree second old' same.symm).symm
    · rfl

end Ballots

structure Node where
  state : RaftState
  votes : List (Nat × Bytes)

namespace Node

def fresh (selfId : Bytes) : Node := ⟨{ selfId }, []⟩

def perform (call : Call) (node : Node) : Node :=
  match call.action node.state with
  | .ok _ after => ⟨after, node.votes ++ (call.vote after).toList⟩
  | .error _ after => ⟨after, node.votes⟩

/-- Votes go to named candidates, and no term reaches the largest one. -/
def Step (before : Node) (call : Call) (after : Node) : Prop :=
  call ≠ .grantVote [] ∧ after = before.perform call ∧ after.state.currentTerm < 2 ^ 64 - 1

structure Consistent (selfId : Bytes) (node : Node) : Prop where
  self : node.state.selfId = selfId
  bounded : node.state.currentTerm < 2 ^ 64 - 1
  ballots : Ballots node.state.currentTerm node.state.votedFor node.votes
  candidate : node.state.currentRole = .kCandidate → node.state.votedFor = selfId ∧ node.state.leaderId = []
  leader : node.state.currentRole = .kLeader → node.state.votedFor = selfId ∧ node.state.leaderId = selfId

namespace Consistent

variable {selfId : Bytes} {node before after : Node} {call : Call}

theorem fresh : Consistent selfId (fresh selfId) where
  self := rfl
  bounded := by simp [Node.fresh]
  ballots := ⟨by simp [Node.fresh], by simp [Node.fresh], by simp [Node.fresh], by simp [Node.fresh]⟩
  candidate role := by simp [Node.fresh] at role
  leader role := by simp [Node.fresh] at role

theorem ok (consistent : Consistent selfId before) (named : selfId ≠ []) (valid : call ≠ .grantVote [])
    {state : RaftState} (run : call.action before.state = .ok () state) (bounded : state.currentTerm < 2 ^ 64 - 1) :
    Consistent selfId ⟨state, before.votes ++ (call.vote state).toList⟩ := by
  have ballots := consistent.ballots
  cases call with
  | setStateChangeCallback =>
    cases run
    exact ⟨consistent.self, bounded, by simpa [Call.vote] using ballots, consistent.candidate, consistent.leader⟩
  | transitionToCandidate =>
    obtain ⟨self, role, term, vote, unknown⟩ := before.state.transitionToCandidate_outcome.of_ok run
    have before_bounded := consistent.bounded
    have newer : before.state.currentTerm < state.currentTerm := by omega
    rw [consistent.self] at self vote
    refine ⟨self, bounded, ?_, fun _ => ⟨vote, unknown⟩, fun leader => by simp [role] at leader⟩
    have own := (ballots.advance newer []).cast (.inl rfl) named
    simpa [Call.vote, self, vote] using own
  | transitionToLeader =>
    obtain ⟨was, self, role, term, vote, known⟩ := before.state.transitionToLeader_outcome.of_ok run
    rw [consistent.self] at self known
    refine ⟨self, bounded, ?_, fun candidate => by simp [role] at candidate, fun _ => ⟨?_, known⟩⟩
    · simpa [Call.vote, term, vote] using ballots
    · exact vote.trans (consistent.candidate was).1
  | stepDown newTerm knownLeaderId =>
    obtain ⟨self, role, term, vote⟩ := (before.state.stepDown_outcome newTerm knownLeaderId).of_ok run
    refine ⟨self.trans consistent.self, bounded, ?_, fun candidate => by simp [role] at candidate,
      fun leader => by simp [role] at leader⟩
    obtain ⟨same, kept⟩ | ⟨newer, cleared⟩ := vote
    · simpa [Call.vote, term, same, kept] using ballots
    · simpa [Call.vote, term, cleared] using ballots.advance newer []
  | grantVote candidateId =>
    obtain ⟨free, rfl⟩ := (before.state.grantVote_outcome candidateId).of_ok run
    have given : candidateId ≠ [] := by simpa using valid
    -- A candidate or leader has voted for itself, so the vote it grants is its own again.
    have again : before.state.votedFor = selfId → candidateId = selfId := by
      intro own
      obtain none | same := free
      · exact absurd (own.symm.trans none) named
      · exact same.symm.trans own
    refine ⟨consistent.self, bounded, by simpa [Call.vote] using ballots.cast free given, ?_, ?_⟩
    · exact fun role => (consistent.candidate role).imp_left again
    · exact fun role => (consistent.leader role).imp_left again
  | restart =>
    cases run
    exact ⟨consistent.self, bounded, by simpa [Call.vote] using ballots, by simp, by simp⟩

theorem step (consistent : Consistent selfId before) (named : selfId ≠ []) (next : Step before call after) :
    Consistent selfId after := by
  obtain ⟨valid, rfl, bounded⟩ := next
  unfold perform at bounded ⊢
  split at bounded
  · next run => exact consistent.ok named valid run bounded
  · next run => rw [Call.action_error run]; exact consistent

end Consistent

theorem one_vote_per_term {selfId : Bytes} (named : selfId ≠ []) {calls : List Call} {node : Node}
    (run : Trace Step (fresh selfId) calls node) :
    (∀ cast ∈ node.votes, ∀ other ∈ node.votes, cast.1 = other.1 → cast.2 = other.2) ∧
    (node.state.currentRole = .kCandidate → node.state.votedFor = selfId ∧ node.state.leaderId = []) ∧
    (node.state.currentRole = .kLeader → node.state.votedFor = selfId ∧ node.state.leaderId = selfId) ∧
    ∀ (call : Call) (status : Status) (after : RaftState), call.action node.state = .error status after →
      after.currentRole = node.state.currentRole ∧ after.currentTerm = node.state.currentTerm ∧
      after.votedFor = node.state.votedFor ∧ after.leaderId = node.state.leaderId := by
  have consistent : Consistent selfId node :=
    run.induct (P := fun _ => Consistent selfId) .fresh fun _ _ _ _ _ consistent next => consistent.step named next
  refine ⟨consistent.ballots.unique, consistent.candidate, consistent.leader, ?_⟩
  intro call status after failed
  rw [Call.action_error failed]
  exact ⟨rfl, rfl, rfl, rfl⟩

theorem one_vote_per_term_restart :
    ∃ node : Node, node.votes = [(7, [2]), (7, [2])] ∧
      ∀ cast ∈ node.votes, ∀ other ∈ node.votes, cast.1 = other.1 → cast.2 = other.2 := by
  have run : Trace Step (fresh [1])
      [.stepDown 7 [], .grantVote [2], .restart, .grantVote [3], .grantVote [2]]
      ⟨{ selfId := [1], currentTerm := 7, votedFor := [2] }, [(7, [2]), (7, [2])]⟩ :=
    ((((Trace.nil.snoc ⟨by decide, rfl, by decide⟩).snoc ⟨by decide, rfl, by decide⟩).snoc
      ⟨by decide, rfl, by decide⟩).snoc ⟨by decide, rfl, by decide⟩).snoc ⟨by decide, rfl, by decide⟩
  exact ⟨_, rfl, (one_vote_per_term (by decide) run).1⟩

end Node

end VectorDb.Raft
