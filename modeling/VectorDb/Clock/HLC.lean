import VectorDb.Lib.LogicalClock

namespace VectorDb.Common
open Lib

namespace HLC

def getPhysicalTime (hlcTime : UInt64) : UInt64 := hlcTime >>> 16

def getLogicalTime (hlcTime : UInt64) : UInt64 := hlcTime &&& 0xFFFF

/-- `HLC::Now` from the clock's reading and `current_time_`. The result is the new `current_time_`. -/
def now (physicalTime currentTime : UInt64) : UInt64 :=
  let currentPhysical := getPhysicalTime currentTime
  let currentLogical := getLogicalTime currentTime
  if physicalTime > currentPhysical then (physicalTime <<< 16) ||| 0
  else (currentPhysical <<< 16) ||| (currentLogical + 1)

def update (physicalTime remoteTime currentTime : UInt64) : UInt64 :=
  let currentPhysical := getPhysicalTime currentTime
  let currentLogical := getLogicalTime currentTime
  let remotePhysical := getPhysicalTime remoteTime
  let remoteLogical := getLogicalTime remoteTime
  let maxPhysical := max (max physicalTime currentPhysical) remotePhysical
  if maxPhysical = physicalTime ∧ (physicalTime > currentPhysical ∧ physicalTime > remotePhysical) then
    (physicalTime <<< 16) ||| 0
  else
    let maxLogical := 0
    let maxLogical := if maxPhysical = currentPhysical then max maxLogical currentLogical else maxLogical
    let maxLogical := if maxPhysical = remotePhysical then max maxLogical remoteLogical else maxLogical
    (maxPhysical <<< 16) ||| (maxLogical + 1)

theorem toNat_getPhysicalTime (t : UInt64) : (getPhysicalTime t).toNat = t.toNat / 2 ^ 16 := by
  simp [getPhysicalTime, Nat.shiftRight_eq_div_pow]

theorem toNat_getLogicalTime (t : UInt64) : (getLogicalTime t).toNat = t.toNat % 2 ^ 16 := by
  simp only [getLogicalTime, UInt64.toNat_and]
  exact Nat.and_two_pow_sub_one_eq_mod _ 16

theorem toNat_shift {physical : UInt64} (small : physical.toNat < 2 ^ 48) :
    (physical <<< 16).toNat = physical.toNat * 2 ^ 16 := by
  rw [UInt64.toNat_shiftLeft]
  simp [Nat.shiftLeft_eq]
  omega

/-- The physical part with the counter incremented, as both operations put them together. -/
def tick (t : UInt64) : UInt64 := (getPhysicalTime t <<< 16) ||| (getLogicalTime t + 1)

/-- A counter that is full on an odd physical part: the carry falls on a bit that is already set. -/
def Full (t : UInt64) : Prop := getLogicalTime t = 0xFFFF ∧ getPhysicalTime t % 2 = 1

instance (t : UInt64) : Decidable (Full t) := inferInstanceAs (Decidable (_ ∧ _))

theorem full_iff (t : UInt64) : Full t ↔ t.toNat % 2 ^ 17 = 2 ^ 17 - 1 := by
  rw [Full, ← UInt64.toNat_inj, ← UInt64.toNat_inj, UInt64.toNat_mod, toNat_getLogicalTime, toNat_getPhysicalTime]
  simp
  omega

private theorem or_one (n : Nat) : n ||| 1 = n / 2 * 2 + 1 := by
  have even : n / 2 * 2 ||| 1 = n / 2 * 2 + 1 := by
    simpa [Nat.shiftLeft_eq] using (Nat.shiftLeft_add_eq_or_of_lt (i := 1) (b := 1) (by decide) (n / 2)).symm
  obtain h | h := Nat.mod_two_eq_zero_or_one n
  · rwa [show n / 2 * 2 = n by omega] at even ⊢
  · rw [show n = n / 2 * 2 + 1 by omega, ← even, Nat.or_assoc, Nat.or_self]
    omega

private theorem carry (n : Nat) : n * 2 ^ 16 ||| 2 ^ 16 = (n / 2 * 2 + 1) * 2 ^ 16 := by
  rw [← or_one, ← Nat.shiftLeft_eq, ← Nat.shiftLeft_eq, Nat.shiftLeft_or_distrib]
  rfl

theorem toNat_tick (t : UInt64) :
    (tick t).toNat = if Full t then t.toNat - (2 ^ 16 - 1) else t.toNat + 1 := by
  have bound := t.toNat_lt
  have physical := toNat_getPhysicalTime t
  have next : (getLogicalTime t + 1).toNat = t.toNat % 2 ^ 16 + 1 := by
    rw [UInt64.toNat_add, toNat_getLogicalTime]
    simp
    omega
  simp only [full_iff]
  rw [tick, UInt64.toNat_or, toNat_shift (by omega), next, physical]
  by_cases inside : t.toNat % 2 ^ 16 + 1 < 2 ^ 16
  · rw [← Nat.shiftLeft_eq, ← Nat.shiftLeft_add_eq_or_of_lt inside, Nat.shiftLeft_eq]
    split <;> omega
  · rw [show t.toNat % 2 ^ 16 + 1 = 2 ^ 16 by omega, carry]
    split <;> omega

theorem now_eq (physicalTime currentTime : UInt64) :
    now physicalTime currentTime =
      if physicalTime > getPhysicalTime currentTime then physicalTime <<< 16 else tick currentTime := by
  simp [now, tick]

theorem lt_now {physicalTime currentTime : UInt64} (small : physicalTime.toNat < 2 ^ 48)
    (room : physicalTime ≤ getPhysicalTime currentTime → ¬ Full currentTime) :
    currentTime < now physicalTime currentTime := by
  have physical := toNat_getPhysicalTime currentTime
  rw [now_eq, UInt64.lt_iff_toNat_lt]
  split
  · next ahead =>
    rw [gt_iff_lt, UInt64.lt_iff_toNat_lt] at ahead
    rw [toNat_shift small]
    omega
  · next behind =>
    rw [toNat_tick, if_neg (room (UInt64.not_lt.mp behind))]
    omega

theorem now_lt {physicalTime currentTime : UInt64} (behind : physicalTime ≤ getPhysicalTime currentTime)
    (full : Full currentTime) : now physicalTime currentTime < currentTime := by
  rw [now_eq, if_neg (UInt64.not_lt.mpr behind), UInt64.lt_iff_toNat_lt, toNat_tick, if_pos full]
  have := (full_iff currentTime).mp full
  omega

theorem max_eq (a b : UInt64) : max a b = if a ≤ b then b else a := rfl

theorem le_iff (a b : UInt64) :
    a ≤ b ↔ getPhysicalTime a < getPhysicalTime b ∨
      getPhysicalTime a = getPhysicalTime b ∧ getLogicalTime a ≤ getLogicalTime b := by
  rw [UInt64.le_iff_toNat_le, UInt64.lt_iff_toNat_lt, UInt64.le_iff_toNat_le, ← UInt64.toNat_inj,
    toNat_getPhysicalTime, toNat_getPhysicalTime, toNat_getLogicalTime, toNat_getLogicalTime]
  omega

theorem update_eq (physicalTime remoteTime currentTime : UInt64) :
    update physicalTime remoteTime currentTime = now physicalTime (max currentTime remoteTime) := by
  have order := le_iff currentTime remoteTime
  rw [update, now_eq, max_eq currentTime]
  simp only [tick, max_eq, apply_ite getPhysicalTime, apply_ite getLogicalTime]
  generalize getPhysicalTime currentTime = c at *
  generalize getPhysicalTime remoteTime = r at *
  generalize getLogicalTime currentTime = c' at *
  generalize getLogicalTime remoteTime = r' at *
  have zero : (0 : UInt64) ≤ c' ∧ (0 : UInt64) ≤ r' := by simp
  grind

theorem now_parts {physicalTime currentTime : UInt64} (small : physicalTime.toNat < 2 ^ 48)
    (room : (getLogicalTime currentTime).toNat < 2 ^ 16 - 1) :
    getPhysicalTime (now physicalTime currentTime) = max physicalTime (getPhysicalTime currentTime) ∧
      (getLogicalTime (now physicalTime currentTime)).toNat ≤ (getLogicalTime currentTime).toNat + 1 := by
  have notFull : ¬ Full currentTime := fun full => by simp [full.1] at room
  have ticked := toNat_tick currentTime
  rw [if_neg notFull] at ticked
  rw [toNat_getLogicalTime] at room ⊢
  rw [now_eq, max_eq, toNat_getLogicalTime]
  split
  · next ahead =>
    rw [if_neg (UInt64.not_le.mpr ahead), ← UInt64.toNat_inj, toNat_getPhysicalTime, toNat_shift small]
    omega
  · next behind =>
    rw [if_pos (UInt64.not_lt.mp behind), ← UInt64.toNat_inj, toNat_getPhysicalTime, toNat_getPhysicalTime, ticked]
    omega

end HLC

end VectorDb.Common
