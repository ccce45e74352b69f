import CmcServer.Model.CInt
import CmcServer.Model.Config

/-! # The game loop

The time that the game loop measures for a tick and the sleep it asks for. A `long` that overflows
wraps. -/

namespace CmcServer

/-- `struct timespec`. -/
structure Timespec where
  tvSec : ℤ
  tvNsec : ℤ
  deriving DecidableEq, Repr

/-- `tick_duration`. -/
def tickDuration (tickStart tickEnd : Timespec) : ℤ :=
  toInt64 (toInt64 (toInt64 (tickEnd.tvSec - tickStart.tvSec) * 1000) +
    (toInt64 (tickEnd.tvNsec - tickStart.tvNsec)).tdiv 1000000000)

/-- The `req` that `safe_sleep` starts with. -/
def sleepRequest (millis : ℤ) : Timespec where
  tvSec := millis.tdiv 1000
  tvNsec := toInt64 (toInt64 (millis - millis.tdiv 1000) * 1000000)

/-- What `nanosleep` does: it sleeps for the time it was asked for, is interrupted by a signal and
leaves the remaining time in `req`, or fails. -/
inductive NanosleepResult where
  | slept
  | interrupted (remaining : Timespec)
  | failed (errno : ℕ)
  deriving DecidableEq, Repr

/-- The requests of the loop of `safe_sleep` and the error it ends with, for the results of the
calls of `nanosleep`. There is no error yet when they run out. -/
def sleepLoop (req : Timespec) : List NanosleepResult → List Timespec × Option Err
  | [] => ([req], none)
  | .slept :: _ => ([req], some .noError)
  | .interrupted remaining :: results =>
      let (requests, err) := sleepLoop remaining results
      (req :: requests, err)
  | .failed errno :: _ => ([req], some (.ofErrno errno))

/-- `safe_sleep`. -/
def safeSleep (millis : ℤ) (results : List NanosleepResult) : List Timespec × Option Err :=
  if millis < 0 then ([], some .noError) else sleepLoop (sleepRequest millis) results

/-- The sleep at the end of a round of `game_loop_thread`. -/
def tickSleep (tickStart tickEnd : Timespec) (results : List NanosleepResult) :
    List Timespec × Option Err :=
  safeSleep (toInt64 (1000 / 20 - tickDuration tickStart tickEnd)) results

end CmcServer
