import VectorDb.Raft.Terms

namespace VectorDb.Raft
open Lib Common

namespace RaftRole

/-- The role changes of the state machine. A split vote makes a candidate one again. -/
inductive Change : RaftRole → RaftRole → Prop
  | timeout : Change kFollower kCandidate
  | retry : Change kCandidate kCandidate
  | won : Change kCandidate kLeader
  | lost : Change kCandidate kFollower
  | deposed : Change kLeader kFollower

def Reported (before : RaftRole) (change : RaftRole × RaftRole) (after : RaftRole) : Prop :=
  change = (before, after) ∧ Change before after

def stage : RaftRole → Nat
  | kCandidate => 0
  | kLeader => 1
  | kFollower => 2

theorem Change.of_not_leader {role : RaftRole} (allowed : role ≠ kLeader) : Change role kCandidate := by
  cases role with
  | kFollower => exact .timeout
  | kCandidate => exact .retry
  | kLeader => exact absurd rfl allowed

theorem Change.of_not_follower {role : RaftRole} (other : role ≠ kFollower) : Change role kFollower := by
  cases role with
  | kFollower => exact absurd rfl other
  | kCandidate => exact .lost
  | kLeader => exact .deposed

theorem stage_le_follower (role : RaftRole) : role.stage ≤ stage kFollower := by
  cases role <;> decide

end RaftRole

def Call.Keeps : Call → Prop
  | setStateChangeCallback => False
  | restart => False
  | _ => True

namespace RaftState

structure Reports (state after : RaftState) : Prop where
  registered : after.onStateChange = state.onStateChange
  change : after.currentRole = state.currentRole ∧ after.changes = state.changes ∨
    RaftRole.Change state.currentRole after.currentRole ∧
      after.changes =
        if state.onStateChange then state.changes ++ [(state.currentRole, after.currentRole)] else state.changes

variable {state : RaftState} {call : Call}

theorem Reports.refl (state : RaftState) : Reports state state := ⟨rfl, .inl ⟨rfl, rfl⟩⟩

theorem Reports.notified {after : RaftState} (same : after.onStateChange = state.onStateChange)
    (record : after.changes = state.changes) (change : RaftRole.Change state.currentRole after.currentRole) :
    Reports state (after.notified state.currentRole) :=
  ⟨same, .inr ⟨change, by simp only [RaftState.notified, same, record]⟩⟩

theorem transitionToCandidate_reports (state : RaftState) :
    transitionToCandidate.AllOrNothing state (Reports state) := by
  by_cases leader : state.currentRole = .kLeader
  · exact .inl ⟨_, by simp [transitionToCandidate, leader, bind, EStateM.bind]; rfl⟩
  · refine .inr ⟨_, by simp [transitionToCandidate, leader, notify, bind, EStateM.bind]; rfl, ?_⟩
    exact .notified rfl rfl (.of_not_leader leader)

theorem transitionToLeader_reports (state : RaftState) : transitionToLeader.AllOrNothing state (Reports state) := by
  by_cases candidate : state.currentRole = .kCandidate
  · refine .inr ⟨_, by simp [transitionToLeader, candidate, notify, bind, EStateM.bind]; rfl, ?_⟩
    exact candidate ▸ .notified rfl rfl (candidate ▸ .won)
  · exact .inl ⟨_, by simp [transitionToLeader, candidate, bind, EStateM.bind]; rfl⟩

theorem stepDown_reports (state : RaftState) (newTerm : Nat) (knownLeaderId : Bytes) :
    (stepDown newTerm knownLeaderId).AllOrNothing state (Reports state) := by
  by_cases lower : newTerm < state.currentTerm
  · exact .inl ⟨_, by simp [stepDown, lower, bind, EStateM.bind]; rfl⟩
  -- The vote is cleared before the role is set; the callback hears of neither.
  · by_cases newer : newTerm > state.currentTerm <;> by_cases follower : state.currentRole = .kFollower
    all_goals refine .inr ⟨_, by simp [stepDown, lower, newer, follower, notify, bind, EStateM.bind]; rfl, ?_⟩
    · exact ⟨rfl, .inl ⟨follower.symm, rfl⟩⟩
    · exact .notified rfl rfl (.of_not_follower follower)
    · exact ⟨rfl, .inl ⟨follower.symm, rfl⟩⟩
    · exact .notified rfl rfl (.of_not_follower follower)

theorem grantVote_reports (state : RaftState) (candidateId : Bytes) :
    (grantVote candidateId).AllOrNothing state (Reports state) := by
  obtain failed | ⟨after, ran, -, rfl⟩ := state.grantVote_outcome candidateId
  · exact .inl failed
  · exact .inr ⟨_, ran, rfl, .inl ⟨rfl, rfl⟩⟩

theorem perform_reports (state : RaftState) (kept : call.Keeps) : Reports state (state.perform call) := by
  have outcome : call.action.AllOrNothing state (Reports state) := by
    cases call with
    | setStateChangeCallback => exact kept.elim
    | restart => exact kept.elim
    | transitionToCandidate => exact transitionToCandidate_reports state
    | transitionToLeader => exact transitionToLeader_reports state
    | stepDown newTerm knownLeaderId => exact stepDown_reports state newTerm knownLeaderId
    | grantVote candidateId => exact grantVote_reports state candidateId
  obtain refused | reports := outcome.final
  · rw [perform, refused]
    exact .refl state
  · exact reports

variable {selfId : Bytes} {calls earlier later : List Call}

theorem perform_chain {start : RaftRole} (kept : call.Keeps) (registered : state.onStateChange = true)
    (chain : Trace RaftRole.Reported start state.changes state.currentRole) :
    Trace RaftRole.Reported start (state.perform call).changes (state.perform call).currentRole := by
  obtain ⟨-, ⟨role, record⟩ | ⟨change, record⟩⟩ := perform_reports state kept
  · rw [role, record]
    exact chain
  · rw [record, if_pos registered]
    exact chain.snoc ⟨rfl, change⟩

/-- The callback hears of every role change from its registration on, and of legal ones only: what it is called
with leads, change by change, from the role at the registration to the present one. -/
theorem callback_hears (kept : ∀ call ∈ later, call.Keeps) :
    let node := after selfId (earlier ++ [.setStateChangeCallback] ++ later)
    node.onStateChange = true ∧
      Trace RaftRole.Reported (after selfId earlier).currentRole node.changes node.currentRole := by
  induction later using List.reverseRecOn with
  | nil =>
    rw [List.append_nil, after_concat]
    exact ⟨rfl, .nil⟩
  | append_singleton later call ih =>
    obtain ⟨registered, chain⟩ := ih fun other member => kept other (by simp [member])
    have last : call.Keeps := kept call (by simp)
    rw [← List.append_assoc, after_concat]
    exact ⟨(perform_reports _ last).registered.trans registered, perform_chain last registered chain⟩

theorem callback_hears_election :
    let node := after [1] ([.transitionToCandidate] ++ [.setStateChangeCallback] ++
      [.transitionToLeader, .transitionToCandidate, .stepDown 5 [2], .grantVote [3]])
    node.changes = [(.kCandidate, .kLeader), (.kLeader, .kFollower)] ∧ node.onStateChange = true ∧
      Trace RaftRole.Reported .kCandidate node.changes .kFollower := by
  refine ⟨by decide, ?_⟩
  exact callback_hears (by simp [Call.Keeps])

theorem perform_stage
    (room : call = .transitionToCandidate → state.currentRole = .kLeader ∨ state.currentTerm ≠ 2 ^ 64 - 1)
    (same : (state.perform call).currentTerm = state.currentTerm) :
    state.currentRole.stage ≤ (state.perform call).currentRole.stage := by
  have refusal (refused : state.perform call = state) :
      state.currentRole.stage ≤ (state.perform call).currentRole.stage := by rw [refused]
  cases call with
  | setStateChangeCallback => exact le_rfl
  | transitionToCandidate =>
    obtain ⟨status, failed⟩ | ⟨candidate, ran, -, -, term, -⟩ := state.transitionToCandidate_outcome
    · exact refusal (Action.final_of_error failed)
    · have allowed : state.currentRole ≠ .kLeader := fun leader => transitionToCandidate_leader leader candidate ran
      have below := (room rfl).resolve_left allowed
      have final : state.perform .transitionToCandidate = candidate := Action.final_of_ok ran
      rw [final, term] at same
      omega
  | transitionToLeader =>
    rcases state.transitionToLeader_outcome.final with refused | ⟨candidate, -⟩
    · exact refusal refused
    · rw [candidate]
      exact Nat.zero_le _
  | stepDown newTerm knownLeaderId =>
    rcases (state.stepDown_outcome newTerm knownLeaderId).final with refused | ⟨-, follower, -⟩
    · exact refusal refused
    · exact follower ▸ RaftRole.stage_le_follower _
  | grantVote candidateId =>
    rcases (state.grantVote_outcome candidateId).final with refused | ⟨-, voted⟩
    · exact refusal refused
    · have role := congrArg currentRole voted
      exact (congrArg RaftRole.stage role).ge
  | restart => exact RaftRole.stage_le_follower _

/-- Within one term a node is first a candidate, then its leader, then a follower: it leads a term at most once, and
does not stand in it again once it has stepped down. -/
theorem roles_within_term (sent : ∀ call ∈ calls, call.Uint64) (room : NoOverflow selfId calls)
    (initial : earlier <+: calls) (same : (after selfId earlier).currentTerm = (after selfId calls).currentTerm) :
    (after selfId earlier).currentRole.stage ≤ (after selfId calls).currentRole.stage := by
  induction calls using List.reverseRecOn with
  | nil => rw [List.prefix_nil.mp initial]
  | append_singleton calls call ih =>
    rcases List.prefix_concat_iff.mp initial with rfl | shorter
    · exact le_rfl
    have sentBefore : ∀ other ∈ calls, other.Uint64 := fun other member => sent other (by simp [member])
    have roomBefore : NoOverflow selfId calls := room.initial (List.prefix_append _ _)
    -- The term is the same at both ends and never falls, so it is the same in between.
    have upTo := roomBefore.initial_term_le sentBefore shorter
    have last := room.term_le sent (List.prefix_refl _)
    have between : (after selfId earlier).currentTerm = (after selfId calls).currentTerm := by omega
    have held : (after selfId (calls ++ [call])).currentTerm = (after selfId calls).currentTerm :=
      same.symm.trans between
    rw [after_concat] at held ⊢
    refine (ih sentBefore roomBefore shorter between).trans (perform_stage ?_ held)
    rintro rfl
    exact room calls (List.prefix_refl _)

theorem roles_within_term_deposed :
    let calls := [Call.transitionToCandidate, .transitionToLeader, .stepDown 1 [2]]
    (after [1] (calls.take 2)).currentRole = .kLeader ∧ (after [1] calls).currentTerm = 1 ∧
      (after [1] (calls.take 2)).currentRole.stage ≤ (after [1] calls).currentRole.stage := by
  intro calls
  refine ⟨by decide, by decide, ?_⟩
  refine roles_within_term (by simp [calls, Call.Uint64]) ?_ ⟨calls.drop 2, List.take_append_drop 2 calls⟩ (by decide)
  intro earlier candidacy
  rcases earlier with _ | ⟨first, _ | ⟨second, _ | ⟨third, rest⟩⟩⟩
  · exact .inr (by decide)
  · simp [calls] at candidacy
  · simp [calls] at candidacy
  · simp [calls] at candidacy

end RaftState

end VectorDb.Raft
