import Mathlib.Data.List.Basic
import Mathlib.Tactic

/-! The sleeps of `components/espix_proc/abi_signal.c` and the timed wait of `umode_futex.c`, over
a tick counter of 32 bits that runs at 250 Hz, and the conversion they share. -/

namespace Espix.Proc.Sleep

/-- `espix_ticks_from_us` at `configTICK_RATE_HZ`, one short of `portMAX_DELAY` at most. -/
def ticksFromUs (us : Nat) : Nat :=
  let t := us * 250 % 2 ^ 64 / 1000000
  if 2 ^ 32 - 1 ≤ t then 2 ^ 32 - 2 else t

def ticksToMs (ticks : Nat) : Nat := ticks * 1000 / 250 % 2 ^ 32

def sleepSecsLeft (msLeft : Nat) : Nat := (msLeft + 999) / 1000

inductive Request
  | sleep (seconds : UInt32)
  | usleep (usec : UInt32)
  | nanosleep (sec nsec : Nat)
  | futexWait (sec nsec : Nat)

def Request.us : Request → Nat
  | .sleep seconds => seconds.toNat * 1000000
  | .usleep usec => usec.toNat
  | .nanosleep sec nsec | .futexWait sec nsec => sec * 1000000 + nsec / 1000

def shortSleepUs : Nat := 20000

/-- The firmware's own `usleep`: when one that begins at a tick is over. -/
structure Firmware where
  usleep : Nat → Nat → Nat
  waits : ∀ us start, start + us / 4000 ≤ usleep us start

def Request.short : Request → Option Nat
  | .usleep usec => if usec.toNat < shortSleepUs then some usec.toNat else none
  | .nanosleep sec nsec =>
    let us := (Request.nanosleep sec nsec).us % 2 ^ 64
    if us < shortSleepUs then some us else none
  | _ => none

/-- A futex takes its time with a sign, and what comes out negative as no time at all. -/
def futexTicks (us : Nat) : Option Nat :=
  let us := BitVec.ofNat 64 us
  if us.toInt < 0 then none else some (((us + 3999).toInt.tdiv 4000) % 2 ^ 32).toNat

/-- The ticks up to the deadline, if the call sets one. -/
def Request.ticks : Request → Option Nat
  | .sleep seconds => some (ticksFromUs (Request.sleep seconds).us)
  | .usleep usec => some (ticksFromUs (Request.usleep usec).us)
  | .nanosleep sec nsec => some (ticksFromUs ((Request.nanosleep sec nsec).us % 2 ^ 64))
  | .futexWait sec nsec => futexTicks (Request.futexWait sec nsec).us

/-- All of the time has passed, or what is left of it, in microseconds, as far as the call says. -/
inductive Answer
  | whole
  | left (us : Nat)
  deriving DecidableEq

def Request.interrupted (r : Request) (left : Int) : Answer :=
  match r with
  | .sleep _ =>
    let secs := if left ≤ 0 then 0 else sleepSecsLeft (ticksToMs left.toNat)
    if secs = 0 then .whole else .left (secs * 1000000)
  | .nanosleep .. => .left (ticksToMs left.toNat * 1000)
  | _ => .left 0

/-- The loop, with what each turn finds: whether a signal or a wake has come, and what time it is.
The turn that ends it comes with its time. -/
def Request.wait (r : Request) (deadline : Option (BitVec 32)) :
    List (Bool × Nat) → Option (Answer × Nat)
  | [] => none
  | (ends, now) :: looks =>
    let left := deadline.map fun deadline => (deadline - BitVec.ofNat 32 now).toInt
    if ends then some (r.interrupted (left.getD 0), now)
    else if left.any (· ≤ 0) then some (.whole, now)
    else r.wait deadline looks

def Request.call (r : Request) (firmware : Firmware) (start : Nat) (looks : List (Bool × Nat)) :
    Option (Answer × Nat) :=
  match r.short with
  | some us => some (.whole, firmware.usleep us start)
  | none => r.wait (r.ticks.map fun ticks => BitVec.ofNat 32 start + BitVec.ofNat 32 ticks) looks

/-- All of the time is over when it is said to be, and no more is left than was asked for. -/
def Honest (r : Request) (start : Nat) (answer : Answer) (now : Nat) : Prop :=
  (answer = .whole → start + min (r.us / 4000) (2 ^ 32 - 2) ≤ now) ∧
    ∀ us, answer = .left us → us ≤ r.us

/-- The calls that never lie. What is left of a sleep has to fit a count of milliseconds, the other
times a signed count of ticks; a futex's time that is negative in 64 bits sets no deadline. -/
def Request.Right : Request → Prop
  | .sleep seconds => seconds.toNat * 250 < 2 ^ 30
  | .usleep _ => True
  | .nanosleep sec nsec => (Request.nanosleep sec nsec).us < 4000 * 2 ^ 31
  | .futexWait sec nsec => (Request.futexWait sec nsec).us ≤ 4000 * (2 ^ 31 - 1) ∨
      2 ^ 63 ≤ (Request.futexWait sec nsec).us % 2 ^ 64

variable {r : Request} {start now ticks us : Nat} {looks : List (Bool × Nat)} {answer : Answer}

theorem sleep_ticks (seconds : UInt32) :
    (Request.sleep seconds).us / 4000 = seconds.toNat * 250 := by
  simp only [Request.us]
  omega

theorem ticksFromUs_of_lt (short : us < 4000 * 2 ^ 31) : ticksFromUs us = us / 4000 := by
  unfold ticksFromUs
  grind

theorem futexTicks_of_lt (short : us < 4000 * 2 ^ 31) :
    futexTicks us = some ((us + 3999) / 4000) := by
  have sign : (BitVec.ofNat 64 us).toInt = us := by
    simp only [BitVec.toInt_eq_toNat_bmod, BitVec.toNat_ofNat, Int.bmod]
    omega
  have sum : (BitVec.ofNat 64 us + 3999).toInt = us + 3999 := by
    simp only [BitVec.toInt_eq_toNat_bmod, BitVec.toNat_add, BitVec.toNat_ofNat,
      BitVec.ofNat_eq_ofNat, Int.bmod]
    omega
  have ticks : (((us : Int) + 3999).tdiv 4000 % 2 ^ 32).toNat = (us + 3999) / 4000 := by
    rw [Int.tdiv_eq_ediv_of_nonneg (by omega)]
    omega
  rw [futexTicks, sum, sign, if_neg (by omega), ticks]

theorem futexTicks_eq_none (negative : 2 ^ 63 ≤ us % 2 ^ 64) : futexTicks us = none := by
  have sign : (BitVec.ofNat 64 us).toInt < 0 := by
    simp only [BitVec.toInt_eq_toNat_bmod, BitVec.toNat_ofNat, Int.bmod]
    omega
  simp [futexTicks, sign]

theorem futexTicks_some (positive : us % 2 ^ 64 < 2 ^ 63) :
    ∃ ticks < 2 ^ 32, futexTicks us = some ticks := by
  have sign : ¬(BitVec.ofNat 64 us).toInt < 0 := by
    simp only [BitVec.toInt_eq_toNat_bmod, BitVec.toNat_ofNat, Int.bmod]
    omega
  refine ⟨_, ?_, if_neg sign⟩
  omega

theorem left_eq (later : start ≤ now) (short : ticks < 2 ^ 31)
    (prompt : now ≤ start + ticks + 2 ^ 31) :
    (BitVec.ofNat 32 start + BitVec.ofNat 32 ticks - BitVec.ofNat 32 now).toInt =
      (start + ticks : Int) - now := by
  simp only [BitVec.toInt_eq_toNat_bmod, BitVec.toNat_sub, BitVec.toNat_add, BitVec.toNat_ofNat,
    Int.bmod]
  omega

theorem wait_spec
    {deadline : Option (BitVec 32)} (ended : r.wait deadline looks = some (answer, now)) :
    let left := deadline.map fun deadline => (deadline - BitVec.ofNat 32 now).toInt
    (∃ ends, (ends, now) ∈ looks) ∧
      (answer = r.interrupted (left.getD 0) ∨ answer = .whole ∧ left.any (· ≤ 0) = true) := by
  fun_induction Request.wait r deadline looks with
  | case1 => cases ended
  | case2 now looks left =>
    cases ended
    exact ⟨⟨true, List.mem_cons_self⟩, .inl rfl⟩
  | case3 ends now looks left signal passed =>
    cases ended
    exact ⟨⟨ends, List.mem_cons_self⟩, .inr ⟨rfl, passed⟩⟩
  | case4 ends now looks left signal passed ih =>
    obtain ⟨⟨ends, member⟩, said⟩ := ih ended
    exact ⟨⟨ends, List.mem_cons_of_mem _ member⟩, said⟩

theorem wait_honest (short : ticks < 2 ^ 31) (enough : r.us / 4000 ≤ ticks)
    (later : ∀ look ∈ looks, start ≤ look.2) (prompt : now ≤ start + ticks + 2 ^ 31)
    (ended : r.wait (some (BitVec.ofNat 32 start + BitVec.ofNat 32 ticks)) looks =
      some (answer, now))
    (interrupted : start ≤ now → Honest r start (r.interrupted ((start + ticks : Int) - now)) now) :
    Honest r start answer now := by
  obtain ⟨⟨ends, member⟩, said⟩ := wait_spec ended
  have after := later _ member
  simp only [Option.map_some, Option.getD_some, Option.any_some, decide_eq_true_eq,
    left_eq after short prompt] at said
  rcases said with rfl | ⟨rfl, passed⟩
  · exact interrupted after
  · exact ⟨fun _ => by omega, by rintro us ⟨⟩⟩

theorem wait_over (few : ticks < 2 ^ 32) :
    r.wait (some (BitVec.ofNat 32 0 + BitVec.ofNat 32 ticks))
      [(false, if ticks < 2 ^ 31 then ticks else 0)] =
        some (.whole, if ticks < 2 ^ 31 then ticks else 0) := by
  have passed : (BitVec.ofNat 32 0 + BitVec.ofNat 32 ticks -
      BitVec.ofNat 32 (if ticks < 2 ^ 31 then ticks else 0)).toInt ≤ 0 := by
    simp only [BitVec.toInt_eq_toNat_bmod, BitVec.toNat_sub, BitVec.toNat_add, BitVec.toNat_ofNat,
      Int.bmod]
    split <;> omega
  simp only [Request.wait, Option.map_some, Option.any_some, passed, decide_true, if_true,
    Bool.false_eq_true, if_false]

theorem sleep_honest {seconds : UInt32} (right : (Request.sleep seconds).Right) {left : Int}
    (most : left ≤ seconds.toNat * 250) (reached : left ≤ 0 → start + seconds.toNat * 250 ≤ now) :
    Honest (.sleep seconds) start ((Request.sleep seconds).interrupted left) now := by
  simp only [Request.Right] at right
  have whole : (Request.sleep seconds).us / 4000 = seconds.toNat * 250 := by
    simp only [Request.us]
    omega
  unfold Honest
  rw [whole]
  simp only [Request.interrupted, ticksToMs, sleepSecsLeft, Request.us]
  grind

theorem nanosleep_honest {sec nsec : Nat} {left : Int}
    (most : left ≤ (Request.nanosleep sec nsec).us / 4000) :
    Honest (.nanosleep sec nsec) start ((Request.nanosleep sec nsec).interrupted left) now := by
  refine ⟨(by rintro ⟨⟩), ?_⟩
  rintro us ⟨⟩
  unfold ticksToMs
  omega

theorem quiet_honest (quiet : answer = .left 0) : Honest r start answer now := by
  subst quiet
  refine ⟨(by rintro ⟨⟩), ?_⟩
  rintro us ⟨⟩
  exact Nat.zero_le _

theorem firmware_honest (firmware : Firmware) (us_eq : r.us = us) :
    Honest r start .whole (firmware.usleep us start) := by
  have waits := firmware.waits us start
  exact ⟨fun _ => by omega, by rintro us ⟨⟩⟩

theorem call_nanosleep (firmware : Firmware) {sec nsec us : Nat}
    (count : (Request.nanosleep sec nsec).us % 2 ^ 64 = us) :
    (Request.nanosleep sec nsec).call firmware start looks =
      if us < shortSleepUs then some (.whole, firmware.usleep us start)
      else (Request.nanosleep sec nsec).wait
        (some (BitVec.ofNat 32 start + BitVec.ofNat 32 (ticksFromUs us))) looks := by
  rw [Request.call, Request.short, Request.ticks, count]
  by_cases short : us < shortSleepUs
  · rw [if_pos short, if_pos short]
  · rw [if_neg short, if_neg short, Option.map_some]

theorem right_honest (right : r.Right) (firmware : Firmware)
    (later : ∀ look ∈ looks, start ≤ look.2)
    (ended : r.call firmware start looks = some (answer, now))
    (prompt : now < start + r.us / 4000 + 2 ^ 31) : Honest r start answer now := by
  cases r with
  | sleep seconds =>
    have ticks := sleep_ticks seconds
    simp only [Request.Right] at right
    have count := @ticksFromUs_of_lt (Request.sleep seconds).us (by omega)
    simp only [Request.call, Request.short, Request.ticks, count, Option.map_some] at ended
    refine wait_honest (by omega) le_rfl later (by omega) ended fun after => ?_
    exact sleep_honest right (by omega) (by omega)
  | usleep usec =>
    have small : (Request.usleep usec).us < 2 ^ 32 := usec.toNat_lt
    have count := @ticksFromUs_of_lt (Request.usleep usec).us (by omega)
    simp only [Request.call, Request.short, Request.ticks, count, Option.map_some] at ended
    split at ended
    · rename_i us short
      cases ended
      exact firmware_honest firmware
        (by simpa [Request.us] using (Option.ite_none_right_eq_some.mp short).2)
    · exact wait_honest (by omega) le_rfl later (by omega) ended fun _ => quiet_honest rfl
  | nanosleep sec nsec =>
    simp only [Request.Right] at right
    have count := @ticksFromUs_of_lt (Request.nanosleep sec nsec).us right
    rw [call_nanosleep firmware (Nat.mod_eq_of_lt (by omega)), count] at ended
    split at ended
    · cases ended
      exact firmware_honest firmware rfl
    · exact wait_honest (by omega) le_rfl later (by omega) ended fun _ =>
        nanosleep_honest (by omega)
  | futexWait sec nsec =>
    simp only [Request.Right] at right
    simp only [Request.call, Request.short, Request.ticks] at ended
    rcases right with short | negative
    · rw [futexTicks_of_lt (by omega), Option.map_some] at ended
      exact wait_honest (by omega) (by omega) later (by omega) ended fun _ => quiet_honest rfl
    · rw [futexTicks_eq_none negative, Option.map_none] at ended
      obtain ⟨-, said | ⟨-, passed⟩⟩ := wait_spec ended
      · exact quiet_honest said
      · cases passed

def exactFirmware : Firmware := ⟨fun us start => start + us / 4000, fun _ _ => le_rfl⟩

theorem wait_dishonest (few : ticks < 2 ^ 32) (long : 0 < r.us / 4000)
    (wrong : ticks < 2 ^ 31 → ticks < min (r.us / 4000) (2 ^ 32 - 2)) :
    ∃ looks answer now, r.wait (some (BitVec.ofNat 32 0 + BitVec.ofNat 32 ticks)) looks =
      some (answer, now) ∧ now < 0 + r.us / 4000 + 2 ^ 31 ∧ ¬Honest r 0 answer now := by
  refine ⟨_, _, _, wait_over few, by split <;> omega, fun honest => ?_⟩
  have whole := honest.1 rfl
  split at whole <;> omega

theorem ticksFromUs_lt (us : Nat) : ticksFromUs us < 2 ^ 32 := by
  unfold ticksFromUs
  grind

theorem wrong_dishonest (wrong : ¬r.Right) : ∃ looks answer now,
    r.call exactFirmware 0 looks = some (answer, now) ∧ now < 0 + r.us / 4000 + 2 ^ 31 ∧
      ¬Honest r 0 answer now := by
  cases r with
  | sleep seconds =>
    have ticks := sleep_ticks seconds
    simp only [Request.Right, not_lt] at wrong
    simp only [Request.call, Request.short, Request.ticks, Option.map_some]
    by_cases long : 2 ^ 31 ≤ seconds.toNat * 250
    · exact wait_dishonest (ticksFromUs_lt _) (by omega) (by omega)
    · -- a signal finds 2^30 ticks left, which are no milliseconds
      have left :=
        @left_eq 0 (seconds.toNat * 250 - 2 ^ 30) (seconds.toNat * 250) (by omega) (by omega)
        (by omega)
      have rest : ((0 : Nat) + (seconds.toNat * 250 : Nat) : Int) -
          (seconds.toNat * 250 - 2 ^ 30 : Nat) = 1073741824 := by omega
      refine ⟨[(true, seconds.toNat * 250 - 2 ^ 30)], .whole, seconds.toNat * 250 - 2 ^ 30, ?_,
        by omega, fun honest => ?_⟩
      · rw [ticksFromUs_of_lt (by omega), ticks, Request.wait, Option.map_some, left, rest]
        rfl
      · have whole := honest.1 rfl
        omega
  | usleep usec => exact absurd trivial wrong
  | nanosleep sec nsec =>
    simp only [Request.Right, not_lt] at wrong
    simp only [call_nanosleep exactFirmware rfl]
    split
    · refine ⟨[], _, _, rfl, ?_, fun honest => ?_⟩
      · simp only [exactFirmware, shortSleepUs] at *
        omega
      · have whole := honest.1 rfl
        simp only [exactFirmware, shortSleepUs] at *
        omega
    · exact wait_dishonest (ticksFromUs_lt _) (by omega) (by omega)
  | futexWait sec nsec =>
    simp only [Request.Right, not_or, not_le] at wrong
    obtain ⟨ticks, few, count⟩ := futexTicks_some wrong.2
    simp only [Request.call, Request.short, Request.ticks, count]
    refine wait_dishonest few (by omega) fun short => ?_
    by_cases near : (Request.futexWait sec nsec).us < 4000 * 2 ^ 31
    · rw [futexTicks_of_lt near, Option.some.injEq] at count
      omega
    · omega

def espixTicksFromUs (us : UInt64) (hz forever : UInt32) : UInt32 :=
  let t := us * hz.toUInt64 / 1000000
  if forever.toUInt64 ≤ t then forever - 1 else t.toUInt32

section Conversion

variable {hz forever : UInt32} (some_forever : 0 < forever)

include some_forever

theorem toNat_espixTicksFromUs (us : UInt64) : (espixTicksFromUs us hz forever).toNat =
    min (us.toNat * hz.toNat % 2 ^ 64 / 1000000) (forever.toNat - 1) := by
  have positive : 0 < forever.toNat := UInt32.lt_iff_toNat_lt.mp some_forever
  have one : 1 ≤ forever := UInt32.le_iff_toNat_le.mpr positive
  have small := forever.toNat_lt
  unfold espixTicksFromUs
  simp only [UInt64.le_iff_toNat_le, UInt64.toNat_div, UInt64.toNat_mul, UInt32.toNat_toUInt64,
    UInt64.reduceToNat]
  split
  · rw [UInt32.toNat_sub_of_le _ _ one]
    exact (Nat.min_eq_right (by simp; omega)).symm
  · simp
    omega

/-- The ticks are those of the numbers, one short of `forever` at most, exactly where the product
has 64 bits or what is left of it saturates. -/
theorem ticks_saturate_iff (us : UInt64) :
    ((espixTicksFromUs us hz forever).toNat =
        min (us.toNat * hz.toNat / 1000000) (forever.toNat - 1) ∧
      espixTicksFromUs us hz forever ≠ forever ∧
      ∀ less ≤ us, espixTicksFromUs less hz forever ≤ espixTicksFromUs us hz forever) ↔
    us.toNat * hz.toNat < 2 ^ 64 ∨
      forever.toNat - 1 ≤ us.toNat * hz.toNat % 2 ^ 64 / 1000000 := by
  have positive : 0 < forever.toNat := UInt32.lt_iff_toNat_lt.mp some_forever
  have small := forever.toNat_lt
  have ticks := fun us => @toNat_espixTicksFromUs hz forever some_forever us
  have other : espixTicksFromUs us hz forever ≠ forever := by
    intro same
    have value := ticks us
    rw [same] at value
    omega
  simp only [UInt32.le_iff_toNat_le, UInt64.le_iff_toNat_le, ticks]
  constructor
  · rintro ⟨value, -, -⟩
    by_contra neither
    rw [not_or] at neither
    omega
  · rintro (fits | full)
    · refine ⟨by rw [Nat.mod_eq_of_lt fits], other, fun less below => ?_⟩
      have product := Nat.mul_le_mul_right hz.toNat below
      rw [Nat.mod_eq_of_lt fits, Nat.mod_eq_of_lt (product.trans_lt fits)]
      exact min_le_min_right _ (Nat.div_le_div_right product)
    · have most := Nat.div_le_div_right (c := 1000000) (Nat.mod_le (us.toNat * hz.toNat) (2 ^ 64))
      exact ⟨by omega, other, fun less below => by omega⟩

end Conversion

theorem ticksFromUs_eq (us : UInt64) :
    ticksFromUs us.toNat = (espixTicksFromUs us 250 0xffffffff).toNat := by
  rw [toNat_espixTicksFromUs (by decide), ticksFromUs]
  simp only [UInt32.reduceToNat]
  split <;> omega

/-- A day, and three and a half thousand years. -/
theorem ticks_saturate_day : (espixTicksFromUs 86400000000 250 0xffffffff).toNat = 21600000 ∧
    (espixTicksFromUs 110000000000000000 250 0xffffffff).toNat = 0xfffffffe := by
  rw [((ticks_saturate_iff (by decide) 86400000000).mpr (by decide)).1,
    ((ticks_saturate_iff (by decide) 110000000000000000).mpr (by decide)).1]
  decide

/-- In 2339 years there is no tick. -/
theorem ticks_wrap : espixTicksFromUs 73786976294838206 250 0xffffffff = 0xfffffffe ∧
    espixTicksFromUs 73786976294838207 250 0xffffffff = 0 := by decide

end Espix.Proc.Sleep
