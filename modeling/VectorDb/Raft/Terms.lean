import VectorDb.Raft.RaftState

namespace VectorDb.Raft
open Lib Common

def Call.Uint64 : Call → Prop
  | stepDown newTerm _ => newTerm < 2 ^ 64
  | _ => True

namespace RaftState

def perform (state : RaftState) (call : Call) : RaftState := call.action.final state

def after (selfId : Bytes) (calls : List Call) : RaftState := calls.foldl perform { selfId }

structure TermsAdvance (selfId : Bytes) (calls : List Call) : Prop where
  kept : ∀ earlier call, earlier ++ [call] <+: calls →
    (after selfId earlier).currentTerm ≤ (after selfId (earlier ++ [call])).currentTerm
  raised : ∀ earlier candidate, earlier ++ [.transitionToCandidate] <+: calls →
    transitionToCandidate (after selfId earlier) = .ok () candidate →
      ∀ past, past <+: earlier → (after selfId past).currentTerm < candidate.currentTerm

def NoOverflow (selfId : Bytes) (calls : List Call) : Prop :=
  ∀ earlier, earlier ++ [.transitionToCandidate] <+: calls →
    (after selfId earlier).currentRole = .kLeader ∨ (after selfId earlier).currentTerm ≠ 2 ^ 64 - 1

theorem after_concat (selfId : Bytes) (calls : List Call) (call : Call) :
    after selfId (calls ++ [call]) = (after selfId calls).perform call := by
  rw [after, List.foldl_concat, after]

variable {state : RaftState} {call : Call}

theorem transitionToCandidate_ok (allowed : state.currentRole ≠ .kLeader) :
    ∃ candidate, transitionToCandidate state = .ok () candidate := by
  obtain ⟨status, failed⟩ | ⟨candidate, ran, -⟩ := state.transitionToCandidate_outcome
  · simp [transitionToCandidate, allowed, notify, bind, EStateM.bind] at failed
  · exact ⟨candidate, ran⟩

theorem transitionToCandidate_leader (leader : state.currentRole = .kLeader) (candidate : RaftState) :
    transitionToCandidate state ≠ .ok () candidate := by
  simp [transitionToCandidate, leader, bind, EStateM.bind]

theorem perform_term (state : RaftState) (call : Call) :
    (state.perform call).currentTerm = state.currentTerm ∨
      (call = .transitionToCandidate ∧ state.currentRole ≠ .kLeader ∧
        (state.perform call).currentTerm = (state.currentTerm + 1) % 2 ^ 64) ∨
      ∃ newTerm knownLeaderId, call = .stepDown newTerm knownLeaderId ∧ state.currentTerm ≤ newTerm ∧
        (state.perform call).currentTerm = newTerm := by
  cases call with
  | setStateChangeCallback => exact .inl rfl
  | transitionToCandidate =>
    obtain ⟨status, failed⟩ | ⟨candidate, ran, -, -, term, -⟩ := state.transitionToCandidate_outcome
    · exact .inl (congrArg currentTerm (Action.final_of_error failed))
    · have allowed : state.currentRole ≠ .kLeader := fun leader => transitionToCandidate_leader leader candidate ran
      exact .inr (.inl ⟨rfl, allowed, (congrArg currentTerm (Action.final_of_ok ran)).trans term⟩)
  | transitionToLeader =>
    rcases state.transitionToLeader_outcome.final with refused | ⟨-, -, -, term, -⟩
    · exact .inl (congrArg currentTerm refused)
    · exact .inl term
  | stepDown newTerm knownLeaderId =>
    rcases (state.stepDown_outcome newTerm knownLeaderId).final with refused | ⟨-, -, term, same | newer⟩
    · exact .inl (congrArg currentTerm refused)
    · exact .inl (term.trans same.1)
    · exact .inr (.inr ⟨newTerm, knownLeaderId, rfl, newer.1.le, term⟩)
  | grantVote candidateId =>
    rcases (state.grantVote_outcome candidateId).final with refused | ⟨-, voted⟩
    · exact .inl (congrArg currentTerm refused)
    · have term := congrArg currentTerm voted
      exact .inl term
  | restart => exact .inl rfl

theorem perform_bounded (sent : call.Uint64) (bounded : state.currentTerm < 2 ^ 64) :
    (state.perform call).currentTerm < 2 ^ 64 := by
  rcases perform_term state call with same | ⟨-, -, next⟩ | ⟨newTerm, knownLeaderId, rfl, -, term⟩
  · exact same.trans_lt bounded
  · exact next.trans_lt (Nat.mod_lt _ (by decide))
  · exact term.trans_lt sent

theorem perform_term_le (bounded : state.currentTerm < 2 ^ 64)
    (room : call = .transitionToCandidate → state.currentRole = .kLeader ∨ state.currentTerm ≠ 2 ^ 64 - 1) :
    state.currentTerm ≤ (state.perform call).currentTerm := by
  rcases perform_term state call with same | ⟨candidacy, allowed, next⟩ | ⟨newTerm, knownLeaderId, -, higher, term⟩
  · exact same.ge
  · have below := (room candidacy).resolve_left allowed
    omega
  · exact higher.trans term.ge

variable {selfId : Bytes} {calls earlier : List Call}

theorem after_bounded (sent : ∀ call ∈ calls, call.Uint64) : (after selfId calls).currentTerm < 2 ^ 64 := by
  induction calls using List.reverseRecOn with
  | nil => exact Nat.two_pow_pos 64
  | append_singleton calls call ih =>
    rw [after_concat]
    exact perform_bounded (sent call (by simp)) (ih fun other member => sent other (by simp [member]))

theorem NoOverflow.initial (room : NoOverflow selfId calls) (initial : earlier <+: calls) : NoOverflow selfId earlier :=
  fun before candidacy => room before (candidacy.trans initial)

theorem NoOverflow.term_le (sent : ∀ call ∈ calls, call.Uint64) (room : NoOverflow selfId calls) {call : Call}
    (made : earlier ++ [call] <+: calls) :
    (after selfId earlier).currentTerm ≤ (after selfId (earlier ++ [call])).currentTerm := by
  rw [after_concat]
  apply perform_term_le
  · exact after_bounded fun other member => sent other (made.subset (by simp [member]))
  · rintro rfl
    exact room earlier made

theorem NoOverflow.initial_term_le (sent : ∀ call ∈ calls, call.Uint64) (room : NoOverflow selfId calls)
    {past : List Call} (initial : past <+: calls) : (after selfId past).currentTerm ≤ (after selfId calls).currentTerm := by
  induction calls using List.reverseRecOn with
  | nil => rw [List.prefix_nil.mp initial]
  | append_singleton calls call ih =>
    rcases List.prefix_concat_iff.mp initial with rfl | shorter
    · exact le_rfl
    · have upTo := ih (fun other member => sent other (by simp [member])) (room.initial (List.prefix_append _ _)) shorter
      exact upTo.trans (room.term_le sent (List.prefix_refl _))

theorem terms_advance_iff (sent : ∀ call ∈ calls, call.Uint64) :
    TermsAdvance selfId calls ↔ NoOverflow selfId calls := by
  constructor
  · intro advance earlier candidacy
    by_contra full
    obtain ⟨allowed, largest⟩ := not_or.mp full
    obtain ⟨candidate, ran⟩ := transitionToCandidate_ok allowed
    obtain ⟨-, -, term, -⟩ := (after selfId earlier).transitionToCandidate_outcome.of_ok ran
    have kept := advance.kept earlier _ candidacy
    have final : (after selfId earlier).perform .transitionToCandidate = candidate := Action.final_of_ok ran
    rw [after_concat, final, term, not_not.mp largest] at kept
    exact absurd kept (by decide)
  · intro room
    refine ⟨fun earlier call made => room.term_le sent made, ?_⟩
    intro earlier candidate candidacy ran past initial
    have before : earlier <+: calls := (List.prefix_append _ _).trans candidacy
    have sentBefore : ∀ call ∈ earlier, call.Uint64 := fun call member => sent call (before.subset member)
    have upTo := (room.initial before).initial_term_le sentBefore initial
    obtain ⟨-, -, term, -⟩ := (after selfId earlier).transitionToCandidate_outcome.of_ok ran
    rcases room earlier candidacy with leader | below
    · exact absurd ran (transitionToCandidate_leader leader candidate)
    · have bounded : (after selfId earlier).currentTerm < 2 ^ 64 := after_bounded sentBefore
      rw [term]
      omega

theorem terms_advance_iff_two_candidacies :
    TermsAdvance [1] [.transitionToCandidate, .transitionToCandidate] := by
  refine (terms_advance_iff (by simp [Call.Uint64])).mpr ?_
  intro earlier candidacy
  have short := candidacy.length_le
  obtain ⟨later, split⟩ := candidacy
  rcases earlier with _ | ⟨first, _ | ⟨second, rest⟩⟩
  · exact .inr (by decide)
  · cases split
    exact .inr (by decide)
  · simp at short

theorem term_wraps :
    let calls := [Call.stepDown (2 ^ 64 - 1) [], .transitionToCandidate]
    (∀ call ∈ calls, call.Uint64) ∧ (after [1] (calls.take 1)).currentTerm = 2 ^ 64 - 1 ∧
      (after [1] calls).currentRole = .kCandidate ∧ (after [1] calls).currentTerm = 0 ∧
      ¬ TermsAdvance [1] calls := by
  intro calls
  refine ⟨by simp [calls, Call.Uint64], by decide, by decide, by decide, ?_⟩
  intro advance
  have kept := advance.kept [.stepDown (2 ^ 64 - 1) []] .transitionToCandidate (List.prefix_refl _)
  exact absurd kept (by decide)

end RaftState

end VectorDb.Raft
