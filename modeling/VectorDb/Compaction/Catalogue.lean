import VectorDb.Common.Platform
import VectorDb.SSTable.TableFile

namespace VectorDb.Storage
open Lib Common

structure SSTableMeta where
  filepath : Path
  level : Int
  smallestKey : Bytes
  largestKey : Bytes
  fileSizeBytes : Nat
  sequenceNumber : Nat
deriving DecidableEq, Repr

def SSTableMeta.overlapsWith (file : SSTableMeta) (lo hi : Bytes) : Bool :=
  !(decide (file.largestKey < lo) || decide (file.smallestKey > hi))

theorem SSTableMeta.overlapsWith_iff (file : SSTableMeta) (lo hi : Bytes) :
    file.overlapsWith lo hi = true ↔ lo ≤ file.largestKey ∧ file.smallestKey ≤ hi := by
  simp [overlapsWith]

namespace leveled

def kNumLevels : Int := 7

def kLevel0CompactionTrigger : Nat := 4

def kLevel1MaxBytes : Nat := 10 * 1024 * 1024

def kLevelMultiplier : Nat := 10

def maxBytesForLevel (level : Int) : Nat :=
  if level ≤ 0 then 0
  else (fun result => result * kLevelMultiplier % 2 ^ 64)^[(level - 1).toNat] kLevel1MaxBytes

end leveled

structure CompactionManager where
  dataDir : Path
  maxLevel : Int
  files : List SSTableMeta
  nextFileNumber : Nat

namespace CompactionManager

variable (pf : Platform) (manager : CompactionManager)

def new (dataDir : Path) (maxLevel : Int) : CompactionManager := ⟨dataDir, maxLevel, [], 1⟩

/-- `std::to_string` of an `int`. -/
def intText (n : Int) : Bytes := if n < 0 then text "-" ++ decimal n.natAbs else decimal n.natAbs

def addFile (file : SSTableMeta) : ErrorOr CompactionManager :=
  if file.level < 0 ∨ file.level ≥ manager.maxLevel then
    .error ⟨.kInvalidArgument, text "Invalid level: " ++ intText file.level⟩
  else .ok { manager with files := manager.files ++ [file] }

def removeFile (filepath : Path) : CompactionManager :=
  { manager with files := manager.files.filter fun file => file.filepath ≠ filepath }

def filesAt (level : Int) : List SSTableMeta := manager.files.filter fun file => file.level = level

def getFilesAtLevel (level : Int) : List SSTableMeta :=
  pf.sort (fun a b => decide (a.smallestKey < b.smallestKey)) (manager.filesAt level)

def totalBytesAtLevel (level : Int) : Nat :=
  (manager.filesAt level).foldl (fun total file => (total + file.fileSizeBytes) % 2 ^ 64) 0

def level0FileCount : Nat := (manager.files.filter fun file => file.level = 0).length

/-- The levels the loop of `PickCompactionLevel` goes through. -/
def sizedLevels : List Int := (List.range (manager.maxLevel - 2).toNat).map fun i : Nat => (i : Int) + 1

def pickCompactionLevel : Int :=
  if manager.level0FileCount ≥ leveled.kLevel0CompactionTrigger then 0
  else (manager.sizedLevels.find? fun level =>
    manager.totalBytesAtLevel level > leveled.maxBytesForLevel level).getD (-1)

def needsCompaction : Bool := manager.pickCompactionLevel ≠ -1

def rangeOf (first : SSTableMeta) (inputs : List SSTableMeta) : Bytes × Bytes :=
  inputs.foldl (fun (lo, hi) file =>
    (if file.smallestKey < lo then file.smallestKey else lo,
      if file.largestKey > hi then file.largestKey else hi)) (first.smallestKey, first.largestKey)

def selectCompactionFiles (sourceLevel : Int) : List SSTableMeta × List SSTableMeta :=
  match manager.getFilesAtLevel pf sourceLevel with
  | [] => ([], [])
  | first :: others =>
    let inputs := if sourceLevel = 0 then first :: others else [first]
    let (lo, hi) := rangeOf first inputs
    (inputs, (manager.getFilesAtLevel pf (sourceLevel + 1)).filter fun file => file.overlapsWith lo hi)

theorem pickCompactionLevel_cases : manager.pickCompactionLevel = -1 ∨
    (manager.pickCompactionLevel = 0 ∨
      1 ≤ manager.pickCompactionLevel ∧ manager.pickCompactionLevel < manager.maxLevel - 1) ∧
        manager.filesAt manager.pickCompactionLevel ≠ [] := by
  unfold pickCompactionLevel
  split
  next many =>
    refine .inr ⟨.inl rfl, fun none => ?_⟩
    rw [level0FileCount, ← filesAt, none] at many
    simp [leveled.kLevel0CompactionTrigger] at many
  next =>
    cases found : manager.sizedLevels.find? _ with
    | none => exact .inl rfl
    | some level =>
      have large := List.find?_some found
      obtain ⟨i, bound, rfl⟩ := List.mem_map.mp (List.mem_of_find?_eq_some found)
      rw [List.mem_range] at bound
      refine .inr ⟨.inr ⟨by simp, by simp; omega⟩, fun none => ?_⟩
      simp only [Option.getD_some] at none
      simp [totalBytesAtLevel, none] at large

section Selection
variable {pf manager}

theorem mem_filesAt {level : Int} {file : SSTableMeta} :
    file ∈ manager.filesAt level ↔ file ∈ manager.files ∧ file.level = level := by
  simp [filesAt]

theorem mem_getFilesAtLevel {level : Int} {file : SSTableMeta} :
    file ∈ manager.getFilesAtLevel pf level ↔ file ∈ manager.files ∧ file.level = level := by
  rw [getFilesAtLevel, pf.mem_sort, mem_filesAt]

theorem le_rangeOf (first : SSTableMeta) (inputs : List SSTableMeta) :
    ((rangeOf first inputs).1 ≤ first.smallestKey ∧ first.largestKey ≤ (rangeOf first inputs).2) ∧
      ∀ file ∈ inputs, (rangeOf first inputs).1 ≤ file.smallestKey ∧ file.largestKey ≤ (rangeOf first inputs).2 := by
  induction inputs using List.reverseRecOn with
  | nil => simp [rangeOf]
  | append_singleton inputs last ih =>
    obtain ⟨low, high⟩ := ih.1
    have step : rangeOf first (inputs ++ [last]) =
        (min (rangeOf first inputs).1 last.smallestKey, max (rangeOf first inputs).2 last.largestKey) := by
      simp only [rangeOf, List.foldl_append, List.foldl_cons, List.foldl_nil, gt_iff_lt]
      rw [min_comm, min_def_lt, max_def_lt]
    rw [step]
    refine ⟨⟨(min_le_left _ _).trans low, high.trans (le_max_left _ _)⟩, fun file member => ?_⟩
    rcases List.mem_append.mp member with old | new
    · exact ⟨(min_le_left _ _).trans (ih.2 file old).1, (ih.2 file old).2.trans (le_max_left _ _)⟩
    · obtain rfl := List.mem_singleton.mp new
      exact ⟨min_le_right _ _, le_max_right _ _⟩

variable (pf manager) in
structure Selection (level : Int) (sources targets : List SSTableMeta) (lo hi : Bytes) : Prop where
  whole : level = 0 → sources = manager.getFilesAtLevel pf 0
  single : level ≠ 0 → ∃ file, sources = [file]
  source : ∀ file ∈ sources, file ∈ manager.files ∧ file.level = level
  range : ∀ file ∈ sources, lo ≤ file.smallestKey ∧ file.largestKey ≤ hi
  target : targets = (manager.getFilesAtLevel pf (level + 1)).filter fun file => file.overlapsWith lo hi

theorem selectCompactionFiles_spec {level : Int} {sources targets : List SSTableMeta}
    (selected : manager.selectCompactionFiles pf level = (sources, targets)) (nonempty : sources ≠ []) :
    ∃ lo hi, manager.Selection pf level sources targets lo hi := by
  unfold selectCompactionFiles at selected
  cases found : manager.getFilesAtLevel pf level with
  | nil =>
    rw [found] at selected
    cases selected
    exact absurd rfl nonempty
  | cons first others =>
    rw [found] at selected
    cases selected
    have inLevel : ∀ file ∈ first :: others, file ∈ manager.files ∧ file.level = level :=
      fun file member => mem_getFilesAtLevel.mp (found ▸ member)
    have inputs : ∀ file ∈ (if level = 0 then first :: others else [first]), file ∈ first :: others := by
      split_ifs
      · exact fun file member => member
      · simp
    refine ⟨_, _, fun zero => ?_, fun deep => ⟨first, by simp [deep]⟩, fun file member => inLevel file (inputs file member),
      fun file member => (le_rangeOf first _).2 file member, rfl⟩
    subst zero
    simp [found]

theorem Selection.target_mem {level : Int} {sources targets : List SSTableMeta} {lo hi : Bytes}
    (selection : manager.Selection pf level sources targets lo hi) {file : SSTableMeta} : file ∈ targets ↔
      file ∈ manager.files ∧ file.level = level + 1 ∧ file.overlapsWith lo hi = true := by
  rw [selection.target, List.mem_filter, mem_getFilesAtLevel, and_assoc]

theorem Selection.input_mem {level : Int} {sources targets : List SSTableMeta} {lo hi : Bytes}
    (selection : manager.Selection pf level sources targets lo hi) {file : SSTableMeta}
    (member : file ∈ sources ++ targets) : file ∈ manager.files := by
  rcases List.mem_append.mp member with source | target
  · exact (selection.source file source).1
  · exact (selection.target_mem.mp target).1

end Selection

def outputPath (dataDir : Path) (level : Int) (number : Nat) : Path :=
  dataDir ++ text "/level" ++ intText level ++ text "_" ++ zeroPad 8 (decimal number) ++ text ".sst"

theorem intText_clean (n : Int) : (95 : Byte) ∉ intText n := by
  have digits : (95 : Byte) ∉ decimal n.natAbs := by
    intro member
    have := decimal_digit _ _ member
    revert this
    decide
  rw [intText]
  split
  · simp [digits, text]
  · exact digits

theorem intText_injective : Function.Injective intText := by
  intro a b same
  have minus : ∀ n, (45 : Byte) ∉ decimal n := by
    intro n member
    have := decimal_digit _ _ member
    revert this
    decide
  simp only [intText] at same
  split_ifs at same with negA negB negB
  · have := decimal_injective (List.append_cancel_left same)
    omega
  · exact absurd (same ▸ List.mem_append_left _ (by decide)) (minus b.natAbs)
  · exact absurd (same.symm ▸ List.mem_append_left _ (by decide)) (minus a.natAbs)
  · have := decimal_injective same
    omega

theorem outputPath_inj {dataDir : Path} {level level' : Int} {number number' : Nat}
    (same : outputPath dataDir level number = outputPath dataDir level' number') :
    level = level' ∧ number = number' := by
  have mark : text "_" = [95] := by decide
  simp only [outputPath, mark, List.append_assoc, List.append_cancel_left_eq, List.cons_append,
    List.nil_append] at same
  obtain ⟨levels, numbers⟩ := append_mark_inj (intText_clean level) (intText_clean level') same
  refine ⟨intText_injective levels, ?_⟩
  have := congrArg ofDecimal (List.append_cancel_right numbers)
  simpa [ofDecimal_zeroPad, ofDecimal_decimal] using this

def flushPath (sstDir : Path) (seq : Nat) : Path := sstDir ++ text "/level0_" ++ decimal seq ++ text ".sst"

theorem flushPath_inj {sstDir : Path} {seq seq' : Nat} (same : flushPath sstDir seq = flushPath sstDir seq') :
    seq = seq' := by
  simp only [flushPath, List.append_assoc, List.append_cancel_left_eq] at same
  exact decimal_injective (List.append_cancel_right same)

theorem flushPath_ne_outputPath (sstDir : Path) (seq : Nat) {level : Int} (deep : level ≥ 1) (number : Nat) :
    flushPath sstDir seq ≠ outputPath sstDir level number := by
  intro same
  have mark : text "_" = [95] := by decide
  have front : text "/level0_" = text "/level" ++ intText 0 ++ [95] := by decide
  simp only [flushPath, outputPath, mark, front, List.append_assoc, List.append_cancel_left_eq, List.cons_append,
    List.nil_append] at same
  have := intText_injective (append_mark_inj (intText_clean 0) (intText_clean level) same).1
  omega

end CompactionManager

end VectorDb.Storage
