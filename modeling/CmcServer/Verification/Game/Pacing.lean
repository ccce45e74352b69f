import CmcServer.Model.Game

/-! # The pace of the ticks

How long a tick took and how long the game loop then asks to sleep, in nanoseconds. The code
divides the nanoseconds of a tick by a billion, and takes a thousandth of the milliseconds away
where it should take the whole seconds away. -/

namespace CmcServer

/-! ## Times -/

def Timespec.nanos (t : Timespec) : ℤ := t.tvSec * 1000000000 + t.tvNsec

/-- The nanoseconds of a valid timespec are less than a second. -/
def Timespec.Valid (t : Timespec) : Prop := 0 ≤ t.tvNsec ∧ t.tvNsec < 1000000000

/-- What `clock_gettime` returns, with a `time_t` of 64 bits. -/
structure Timestamp extends Timespec where
  valid : toTimespec.Valid
  tvSec_lo : -(2 ^ 63) ≤ tvSec
  tvSec_hi : tvSec < 2 ^ 63

def elapsedMillis (tickStart tickEnd : Timespec) : ℤ :=
  (tickEnd.nanos - tickStart.nanos) / 1000000

/-- A timespec is valid and denotes so many milliseconds. -/
def Timespec.Denotes (t : Timespec) (millis : ℤ) : Prop :=
  t.Valid ∧ t.nanos = millis * 1000000

/-- The tick is measured in whole milliseconds and the rest of its 50 milliseconds is slept
away. -/
structure TickPaced (tickStart tickEnd : Timespec) : Prop where
  duration : tickDuration tickStart tickEnd = elapsedMillis tickStart tickEnd
  sleeps : ∀ results, 0 ≤ 50 - tickDuration tickStart tickEnd →
    ∃ req, (tickSleep tickStart tickEnd results).1.head? = some req ∧
      req.Denotes (50 - tickDuration tickStart tickEnd)
  lags : ∀ results, 50 - tickDuration tickStart tickEnd < 0 →
    tickSleep tickStart tickEnd results = ([], some .noError)

/-! ## Requests -/

theorem sleepLoop_head (req : Timespec) (results : List NanosleepResult) :
    (sleepLoop req results).1.head? = some req := by
  cases results with
  | nil => rfl
  | cons result results => cases result <;> rfl

theorem safeSleep_head {millis : ℤ} (h : 0 ≤ millis) (results : List NanosleepResult) :
    (safeSleep millis results).1.head? = some (sleepRequest millis) := by
  rw [safeSleep, if_neg (by omega)]
  exact sleepLoop_head _ _

theorem safeSleep_of_neg {millis : ℤ} (h : millis < 0) (results : List NanosleepResult) :
    safeSleep millis results = ([], some .noError) := if_pos h

theorem toInt64_eq_add (x : ℤ) : ∃ k, toInt64 x = x + 2 ^ 64 * k := by
  obtain ⟨k, hk⟩ : ((2 ^ 64 : ℕ) : ℤ) ∣ toInt64 x - x := Int.dvd_bmod_sub_self
  have hpow : ((2 ^ 64 : ℕ) : ℤ) = 2 ^ 64 := rfl
  rw [hpow] at hk
  exact ⟨k, by omega⟩

theorem sleepRequest_tvNsec (millis : ℤ) :
    (sleepRequest millis).tvNsec = toInt64 ((millis - millis.tdiv 1000) * 1000000) :=
  Int.bmod_mul_bmod

/-- Below a second the request is right. From a second on the nanoseconds are too many, also when
they wrap. -/
theorem sleepRequest_denotes_iff {millis : ℤ} (hlo : 0 ≤ millis) (hhi : millis < 2 ^ 63) :
    (sleepRequest millis).Denotes millis ↔ millis < 1000 := by
  have hsec : (sleepRequest millis).tvSec = millis / 1000 := Int.tdiv_eq_ediv_of_nonneg hlo
  have hnsec := sleepRequest_tvNsec millis
  rw [Int.tdiv_eq_ediv_of_nonneg hlo] at hnsec
  rw [Timespec.Denotes, Timespec.Valid, Timespec.nanos, hsec]
  constructor
  · rintro ⟨-, hnanos⟩
    obtain ⟨k, hk⟩ := toInt64_eq_add ((millis - millis / 1000) * 1000000)
    omega
  · intro hlt
    have hexact : toInt64 ((millis - millis / 1000) * 1000000) =
        (millis - millis / 1000) * 1000000 := toInt64_of_range (by omega) (by omega)
    omega

/-! ## Durations -/

/-- Less than a second of nanoseconds is divided away. -/
theorem tickDuration_eq (s e : Timestamp) :
    tickDuration s.toTimespec e.toTimespec = toInt64 ((e.tvSec - s.tvSec) * 1000) := by
  rcases s.valid with ⟨hslo, hshi⟩
  rcases e.valid with ⟨helo, hehi⟩
  have hnsec : toInt64 (e.tvNsec - s.tvNsec) = e.tvNsec - s.tvNsec :=
    toInt64_of_range (by omega) (by omega)
  have hzero : (e.tvNsec - s.tvNsec).tdiv 1000000000 = 0 := by
    by_cases hneg : e.tvNsec - s.tvNsec < 0
    · rw [← Int.neg_neg (e.tvNsec - s.tvNsec), Int.neg_tdiv,
        Int.tdiv_eq_zero_of_lt (by omega) (by omega), Int.neg_zero]
    · exact Int.tdiv_eq_zero_of_lt (by omega) (by omega)
  rw [tickDuration, hnsec, hzero, Int.add_zero]
  simp only [toInt64, Int.bmod_mul_bmod, Int.bmod_bmod]

/-- The duration is right when the nanoseconds grew by less than a millisecond and the seconds
fit. -/
theorem tickDuration_eq_elapsed_iff {s e : Timestamp} (hle : s.nanos ≤ e.nanos) :
    tickDuration s.toTimespec e.toTimespec = elapsedMillis s.toTimespec e.toTimespec ↔
      (0 ≤ e.tvNsec - s.tvNsec ∧ e.tvNsec - s.tvNsec < 1000000) ∧
        (e.tvSec - s.tvSec) * 1000 < 2 ^ 63 := by
  rcases s.valid with ⟨hslo, hshi⟩
  rcases e.valid with ⟨helo, hehi⟩
  rw [Timespec.nanos, Timespec.nanos] at hle
  rw [tickDuration_eq, elapsedMillis, Timespec.nanos, Timespec.nanos]
  constructor
  · intro h
    obtain ⟨k, hk⟩ := toInt64_eq_add ((e.tvSec - s.tvSec) * 1000)
    have hbounds := toInt64_bounds ((e.tvSec - s.tvSec) * 1000)
    omega
  · rintro ⟨⟨hlo, hhi⟩, hfits⟩
    rw [toInt64_of_range (by omega) hfits]
    omega

theorem tickPaced_iff_duration {s e : Timestamp} (hle : s.nanos ≤ e.nanos) :
    TickPaced s.toTimespec e.toTimespec ↔
      tickDuration s.toTimespec e.toTimespec = elapsedMillis s.toTimespec e.toTimespec := by
  constructor
  · exact fun h => h.duration
  · intro h
    have hnonneg : 0 ≤ tickDuration s.toTimespec e.toTimespec := by
      rw [h, elapsedMillis]
      exact Int.ediv_nonneg (by omega) (by decide)
    have hbounds : tickDuration s.toTimespec e.toTimespec < 2 ^ 63 := by
      rw [tickDuration_eq]
      exact (toInt64_bounds _).2
    have hleft : toInt64 (1000 / 20 - tickDuration s.toTimespec e.toTimespec) =
        50 - tickDuration s.toTimespec e.toTimespec := toInt64_of_range (by omega) (by omega)
    refine ⟨h, ?_, ?_⟩
    · intro results hpos
      rw [tickSleep, hleft]
      exact ⟨_, safeSleep_head hpos results,
        (sleepRequest_denotes_iff hpos (by omega)).mpr (by omega)⟩
    · intro results hneg
      rw [tickSleep, hleft]
      exact safeSleep_of_neg hneg results

/-! ## Pacing -/

/-- A tick is paced exactly when its nanoseconds grew by less than a millisecond, and the
milliseconds of its seconds fit into a `long`. A request of `safe_sleep` is right exactly below a
second. -/
theorem tick_pacing_iff (s e : Timestamp) (hle : s.nanos ≤ e.nanos) (millis : ℤ)
    (hlo : 0 ≤ millis) (hhi : millis < 2 ^ 63) :
    (TickPaced s.toTimespec e.toTimespec ↔
      (0 ≤ e.tvNsec - s.tvNsec ∧ e.tvNsec - s.tvNsec < 1000000) ∧
        (e.tvSec - s.tvSec) * 1000 < 2 ^ 63) ∧
      ((∀ results, ∃ req, (safeSleep millis results).1.head? = some req ∧ req.Denotes millis) ↔
        millis < 1000) := by
  constructor
  · rw [tickPaced_iff_duration hle, tickDuration_eq_elapsed_iff hle]
  · rw [← sleepRequest_denotes_iff hlo hhi]
    constructor
    · intro h
      rcases h [] with ⟨req, hhead, hdenotes⟩
      rw [safeSleep_head hlo] at hhead
      cases hhead
      exact hdenotes
    · exact fun h results => ⟨_, safeSleep_head hlo results, h⟩

/-- A tick of 400 microseconds, and the sleep after it. -/
theorem tick_pacing_quick :
    TickPaced ⟨7, 999000000⟩ ⟨7, 999400000⟩ ∧
      ∀ results, ∃ req, (safeSleep 50 results).1.head? = some req ∧ req.Denotes 50 := by
  have h := tick_pacing_iff ⟨⟨7, 999000000⟩, ⟨by decide, by decide⟩, by decide, by decide⟩
    ⟨⟨7, 999400000⟩, ⟨by decide, by decide⟩, by decide, by decide⟩ (by decide) 50 (by decide)
    (by decide)
  exact ⟨h.1.mpr ⟨⟨by decide, by decide⟩, by decide⟩, h.2.mpr (by decide)⟩

/-- A tick of a millisecond is measured as none, and a sleep of a second is nearly two. -/
theorem tick_pacing_fails :
    (¬ ∀ s e : Timestamp, s.nanos ≤ e.nanos → TickPaced s.toTimespec e.toTimespec) ∧
      ¬ ∀ millis : ℤ, 0 ≤ millis → millis < 2 ^ 63 → ∀ results, ∃ req,
        (safeSleep millis results).1.head? = some req ∧ req.Denotes millis := by
  constructor
  · intro h
    have hpaced := h ⟨⟨7, 0⟩, ⟨by decide, by decide⟩, by decide, by decide⟩
      ⟨⟨7, 1000000⟩, ⟨by decide, by decide⟩, by decide, by decide⟩ (by decide)
    exact absurd hpaced.duration (by decide)
  · intro h
    rcases h 1000 (by decide) (by decide) [.slept] with ⟨req, hhead, -, hnanos⟩
    cases hhead
    exact absurd hnanos (by decide)

end CmcServer
