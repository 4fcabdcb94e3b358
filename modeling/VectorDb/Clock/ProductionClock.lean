import VectorDb.Clock.HLC

namespace VectorDb.Common

namespace HLC

def timestamps (currentTime : UInt64) : List UInt64 → List UInt64
  | [] => []
  | reading :: readings => now reading currentTime :: timestamps (now reading currentTime) readings

def timeAfter (currentTime : UInt64) (readings : List UInt64) : UInt64 :=
  readings.foldl (fun time reading => now reading time) currentTime

def wrapped (reading : UInt64) : Nat := reading.toNat % 2 ^ 48

/-- A reading too large for 48 bits still exceeds all earlier ones in the bits that are left of it. -/
def WrapsUpwards (readings : List UInt64) : Prop :=
  readings.Pairwise fun earlier later => 2 ^ 48 ≤ later.toNat → wrapped earlier < wrapped later

instance (readings : List UInt64) : Decidable (WrapsUpwards readings) :=
  inferInstanceAs (Decidable (readings.Pairwise _))

theorem toNat_shift_wrapped (reading : UInt64) : (reading <<< 16).toNat = wrapped reading * 2 ^ 16 := by
  rw [UInt64.toNat_shiftLeft, wrapped]
  simp [Nat.shiftLeft_eq]
  omega

theorem toNat_now_ahead {reading time : UInt64} (ahead : time.toNat / 2 ^ 16 < reading.toNat) :
    (now reading time).toNat = wrapped reading * 2 ^ 16 := by
  rw [now_eq, if_pos, toNat_shift_wrapped]
  rwa [gt_iff_lt, UInt64.lt_iff_toNat_lt, toNat_getPhysicalTime]

theorem toNat_now_behind {reading time : UInt64} (behind : reading.toNat ≤ time.toNat / 2 ^ 16)
    (room : time.toNat % 2 ^ 16 < 2 ^ 16 - 1) : (now reading time).toNat = time.toNat + 1 := by
  rw [now_eq, if_neg, toNat_tick, if_neg]
  · rw [full_iff]
    omega
  · rwa [gt_iff_lt, UInt64.lt_iff_toNat_lt, toNat_getPhysicalTime, not_lt]

section Concat
variable (time : UInt64) (readings : List UInt64) (reading : UInt64)

theorem timeAfter_concat : timeAfter time (readings ++ [reading]) = now reading (timeAfter time readings) := by
  simp [timeAfter]

theorem timestamps_concat :
    timestamps time (readings ++ [reading]) = timestamps time readings ++ [now reading (timeAfter time readings)] := by
  induction readings generalizing time with
  | nil => rfl
  | cons first readings ih => simp [timestamps, ih, timeAfter]

theorem timeAfter_mem (called : readings ≠ []) : timeAfter time readings ∈ timestamps time readings := by
  induction readings using List.reverseRecOn with
  | nil => exact absurd rfl called
  | append_singleton readings last _ => simp [timeAfter_concat, timestamps_concat]

end Concat

structure Advanced (readings : List UInt64) : Prop where
  counter : (timeAfter 0 readings).toNat % 2 ^ 16 ≤ readings.length
  above : ∀ reading ∈ readings, wrapped reading ≤ (timeAfter 0 readings).toNat / 2 ^ 16
  taken : readings ≠ [] → ∃ reading ∈ readings, wrapped reading = (timeAfter 0 readings).toNat / 2 ^ 16
  latest : ∀ t ∈ timestamps 0 readings, t ≤ timeAfter 0 readings

theorem advanced_nil : Advanced [] := ⟨by simp [timeAfter], by simp, by simp, by simp [timestamps]⟩

section Step
variable {readings : List UInt64} {reading : UInt64}

theorem Advanced.concat (advanced : Advanced readings)
    (rises : readings ≠ [] → timeAfter 0 readings < now reading (timeAfter 0 readings))
    (counter : (now reading (timeAfter 0 readings)).toNat % 2 ^ 16 ≤ readings.length + 1)
    (taken : ∃ r ∈ readings ++ [reading], wrapped r = (now reading (timeAfter 0 readings)).toNat / 2 ^ 16)
    (last : wrapped reading ≤ (now reading (timeAfter 0 readings)).toNat / 2 ^ 16) :
    Advanced (readings ++ [reading]) := by
  refine ⟨by simpa [timeAfter_concat] using counter, ?_, ?_, ?_⟩ <;> rw [timeAfter_concat]
  · intro r member
    obtain old | new := List.mem_append.mp member
    · have rise := UInt64.lt_iff_toNat_lt.mp (rises (List.ne_nil_of_mem old))
      have below := advanced.above r old
      omega
    · rw [List.mem_singleton.mp new]
      exact last
  · exact fun _ => taken
  · intro t member
    rw [timestamps_concat] at member
    obtain old | new := List.mem_append.mp member
    · have called : readings ≠ [] := by
        rintro rfl
        simp [timestamps] at old
      exact UInt64.le_trans (advanced.latest t old) (UInt64.le_of_lt (rises called))
    · rw [List.mem_singleton.mp new]
      exact UInt64.le_refl _

theorem Advanced.lt_wrapped (advanced : Advanced readings) (called : readings ≠ [])
    (upwards : ∀ earlier ∈ readings, 2 ^ 48 ≤ reading.toNat → wrapped earlier < wrapped reading)
    (ahead : (timeAfter 0 readings).toNat / 2 ^ 16 < reading.toNat) :
    (timeAfter 0 readings).toNat / 2 ^ 16 < wrapped reading := by
  by_cases large : 2 ^ 48 ≤ reading.toNat
  · obtain ⟨earlier, member, same⟩ := advanced.taken called
    rw [← same]
    exact upwards earlier member large
  · rwa [wrapped, Nat.mod_eq_of_lt (not_le.mp large)]

theorem Advanced.step (advanced : Advanced readings) (few : readings.length < 2 ^ 16 - 1)
    (upwards : ∀ earlier ∈ readings, 2 ^ 48 ≤ reading.toNat → wrapped earlier < wrapped reading) :
    Advanced (readings ++ [reading]) ∧
      (readings ≠ [] → timeAfter 0 readings < now reading (timeAfter 0 readings)) := by
  have counter := advanced.counter
  obtain ahead | behind := lt_or_ge ((timeAfter 0 readings).toNat / 2 ^ 16) reading.toNat
  · have stamp := toNat_now_ahead ahead
    have rises : readings ≠ [] → timeAfter 0 readings < now reading (timeAfter 0 readings) := by
      intro called
      have less := advanced.lt_wrapped called upwards ahead
      rw [UInt64.lt_iff_toNat_lt, stamp]
      omega
    exact ⟨advanced.concat rises (by omega) ⟨reading, by simp, by omega⟩ (by omega), rises⟩
  · have stamp := toNat_now_behind behind (by omega)
    have small : wrapped reading = reading.toNat :=
      Nat.mod_eq_of_lt (by have := (timeAfter 0 readings).toNat_lt; omega)
    have rises : timeAfter 0 readings < now reading (timeAfter 0 readings) := by
      rw [UInt64.lt_iff_toNat_lt, stamp]
      omega
    refine ⟨advanced.concat (fun _ => rises) (by omega) ?_ (by omega), fun _ => rises⟩
    by_cases called : readings = []
    · subst called
      refine ⟨reading, by simp, ?_⟩
      simp only [timeAfter, List.foldl_nil, UInt64.toNat_zero] at behind stamp ⊢
      omega
    · obtain ⟨earlier, member, same⟩ := advanced.taken called
      exact ⟨earlier, List.mem_append_left _ member, by omega⟩

theorem Advanced.upwards (advanced : Advanced readings)
    (rises : ∀ t ∈ timestamps 0 readings, t < now reading (timeAfter 0 readings)) (earlier : UInt64)
    (member : earlier ∈ readings) (large : 2 ^ 48 ≤ reading.toNat) : wrapped earlier < wrapped reading := by
  have less := rises _ (timeAfter_mem 0 readings (List.ne_nil_of_mem member))
  have bound := (timeAfter 0 readings).toNat_lt
  rw [UInt64.lt_iff_toNat_lt, toNat_now_ahead (by omega)] at less
  have below := advanced.above earlier member
  omega

end Step

theorem advanced_of_upwards {readings : List UInt64} (few : readings.length < 2 ^ 16)
    (upwards : WrapsUpwards readings) : Advanced readings ∧ (timestamps 0 readings).Pairwise (· < ·) := by
  induction readings using List.reverseRecOn with
  | nil => exact ⟨advanced_nil, .nil⟩
  | append_singleton readings reading ih =>
    rw [List.length_append, List.length_singleton] at few
    obtain ⟨before, -, last⟩ := List.pairwise_append.mp upwards
    obtain ⟨advanced, increasing⟩ := ih (by omega) before
    obtain ⟨next, rises⟩ := advanced.step (by omega) fun earlier member => last earlier member reading (by simp)
    refine ⟨next, ?_⟩
    rw [timestamps_concat, List.pairwise_append]
    refine ⟨increasing, List.pairwise_singleton _ _, fun t member new isNew => ?_⟩
    have called : readings ≠ [] := by
      rintro rfl
      simp [timestamps] at member
    rw [List.mem_singleton.mp isNew]
    exact UInt64.lt_of_le_of_lt (advanced.latest t member) (rises called)

theorem upwards_of_increasing {readings : List UInt64} (few : readings.length < 2 ^ 16)
    (increasing : (timestamps 0 readings).Pairwise (· < ·)) : WrapsUpwards readings := by
  induction readings using List.reverseRecOn with
  | nil => exact .nil
  | append_singleton readings reading ih =>
    rw [List.length_append, List.length_singleton] at few
    rw [timestamps_concat, List.pairwise_append] at increasing
    obtain ⟨before, -, last⟩ := increasing
    have upwards := ih (by omega) before
    have advanced := (advanced_of_upwards (by omega) upwards).1
    refine List.pairwise_append.mpr ⟨upwards, List.pairwise_singleton _ _, fun earlier member later isLater => ?_⟩
    rw [List.mem_singleton.mp isLater]
    exact advanced.upwards (fun t inside => last t inside _ (by simp)) earlier member

/-- The shift drops the bits of a reading above 48: the order of the timestamps rests on what is left. -/
theorem timestamps_increasing_iff (readings : List UInt64) (few : readings.length < 65535) :
    (timestamps 0 readings).Pairwise (· < ·) ↔ WrapsUpwards readings :=
  ⟨upwards_of_increasing (by omega), fun upwards => (advanced_of_upwards (by omega) upwards).2⟩

theorem timestamps_increasing_advancing :
    (timestamps 0 [1760000000000000, 1760000000000001, 7, 1760000000000002]).Pairwise (· < ·) :=
  (timestamps_increasing_iff _ (by decide)).mpr (by decide)

theorem repeated_microsecond_repeats :
    ¬ ∀ readings : List UInt64, readings.length < 65535 → (timestamps 0 readings).Pairwise (· < ·) := by
  intro increasing
  exact absurd (increasing [1760000000000000, 1760000000000000] (by decide)) (by decide)

end HLC

end VectorDb.Common
