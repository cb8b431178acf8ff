import MofuOS.Words

/-! sleep_current_task_ms of process/wait.rs: the wake time, and the loop that blocks again whoever wakes the
task. What the clock shows and whether the task is asked to exit are inputs of every round. -/
namespace MofuOS.Process
open Lib

def microsecondsPerMillisecond : Nat := 1000

/-- What the loop sees in a round: the clock, and whether the task is asked to exit. -/
structure Round where
  nowUs : UInt64
  killPending : Bool
  deriving DecidableEq

/-- The point in time a sleep of durationMs that starts at nowUs ends at. -/
def wakeTimeUs (p : Profile) (nowUs durationMs : UInt64) : Outcome Nat := do
  let durationUs ← unsigned p 64 (durationMs.toNat * microsecondsPerMillisecond)
  unsigned p 64 (nowUs.toNat + durationUs)

/-- The round the loop returns in, none while the task is still blocked. Between two rounds the task is blocked
until somebody wakes it, in time, early or for no reason. -/
def sleepLoop (wakeTimeUs : Nat) : List Round → Option Round
  | [] => none
  | round :: rounds => if round.nowUs.toNat < wakeTimeUs && !round.killPending then sleepLoop wakeTimeUs rounds else some round

def sleepCurrentTaskMs (p : Profile) (durationMs nowUs : UInt64) (rounds : List Round) : Outcome (Option Round) := do
  let wakeTimeUs ← wakeTimeUs p nowUs durationMs
  .ok (sleepLoop wakeTimeUs rounds)

/-- The arithmetic stays in range, and the call returns after the duration or because the task is asked to exit. -/
structure SleepsLongEnough (p : Profile) (durationMs nowUs : UInt64) (rounds : List Round) : Prop where
  inRange : ∃ t, wakeTimeUs .dev nowUs durationMs = .ok t
  runs : ∃ r, sleepCurrentTaskMs p durationMs nowUs rounds = .ok r
  long : ∀ round, sleepCurrentTaskMs p durationMs nowUs rounds = .ok (some round) →
    nowUs.toNat + durationMs.toNat * 1000 ≤ round.nowUs.toNat ∨ round.killPending = true

variable {p : Profile} {durationMs nowUs : UInt64} {rounds : List Round} {round : Round} {t : Nat}

theorem wakeTimeUs_of_lt (h : nowUs.toNat + durationMs.toNat * 1000 < 2^64) :
    wakeTimeUs p nowUs durationMs = .ok (nowUs.toNat + durationMs.toNat * 1000) := by
  have hmul : durationMs.toNat * microsecondsPerMillisecond < 2^64 := Nat.lt_of_le_of_lt (Nat.le_add_left ..) h
  rw [wakeTimeUs,unsigned_mul hmul,ok_bind]
  exact unsigned_add h

theorem wakeTimeUs_dev (h : wakeTimeUs .dev nowUs durationMs = .ok t) : nowUs.toNat + durationMs.toNat * 1000 < 2^64 := by
  obtain ⟨us,hmul,hadd⟩ := bind_eq_ok h
  obtain ⟨hus,-⟩ := unsigned_dev hmul
  obtain ⟨hsum,hlt⟩ := unsigned_dev hadd
  simp only [microsecondsPerMillisecond] at hus
  omega

/-- Whoever wakes the task before its time, it blocks again. -/
theorem sleepLoop_long (h : sleepLoop t rounds = some round) : t ≤ round.nowUs.toNat ∨ round.killPending = true := by
  induction rounds with
  | nil => cases h
  | cons r rounds ih =>
    rw [sleepLoop] at h
    split_ifs at h with hagain
    · exact ih h
    · cases h
      rw [Bool.and_eq_true,decide_eq_true_eq,Bool.not_eq_true',not_and_or,Nat.not_lt,Bool.not_eq_false] at hagain
      exact hagain

/-- A sleep is long enough, however the task is woken, exactly when its end is a u64 number of microseconds. -/
theorem sleepsLongEnough_iff :
    SleepsLongEnough p durationMs nowUs rounds ↔ nowUs.toNat + durationMs.toNat * 1000 < 2^64 := by
  constructor
  · rintro ⟨⟨t,ht⟩,-,-⟩
    exact wakeTimeUs_dev ht
  · intro h
    have hruns : sleepCurrentTaskMs p durationMs nowUs rounds =
        .ok (sleepLoop (nowUs.toNat + durationMs.toNat * 1000) rounds) := by
      rw [sleepCurrentTaskMs,wakeTimeUs_of_lt h,ok_bind]
    refine ⟨⟨_,wakeTimeUs_of_lt h⟩,⟨_,hruns⟩,fun round hround => ?_⟩
    rw [hruns] at hround
    exact sleepLoop_long (Except.ok.inj hround)

/-- A sleep for ever panics in dev, and returns at once in release, one millisecond after the system started. -/
theorem endless_sleep_fails :
    ¬ SleepsLongEnough .dev 0xFFFFFFFFFFFFFFFF 1000 [⟨1000,false⟩] ∧
    ¬ SleepsLongEnough .release 0xFFFFFFFFFFFFFFFF 1000 [⟨1000,false⟩] ∧
    sleepCurrentTaskMs .dev 0xFFFFFFFFFFFFFFFF 1000 [⟨1000,false⟩] = .error .panic ∧
    sleepCurrentTaskMs .release 0xFFFFFFFFFFFFFFFF 1000 [⟨1000,false⟩] = .ok (some ⟨1000,false⟩) := by
  have hends : sleepCurrentTaskMs .dev 0xFFFFFFFFFFFFFFFF 1000 [⟨1000,false⟩] = .error .panic ∧
      sleepCurrentTaskMs .release 0xFFFFFFFFFFFFFFFF 1000 [⟨1000,false⟩] = .ok (some ⟨1000,false⟩) := by decide +kernel
  refine ⟨fun h => ?_,fun h => ?_,hends⟩
  · obtain ⟨r,hr⟩ := h.runs
    rw [hends.1] at hr
    cases hr
  · have hlong := h.long ⟨1000,false⟩ hends.2
    revert hlong
    decide

end MofuOS.Process
