/-!
# Clocks and timers

A clock is asked for the time now and then.  `Clock` holds all answers that it
will give, as a function of the number of the question, so nothing is assumed
about them.

`Timers` measure the phases of a task.  A timer that is started while another
one runs is recorded beneath it.  Its *path* is the list of the keys of the
running timers, the outermost first.  Stopping ends the innermost timer.  All
running timers can be suspended and resumed, and the time between is not
counted.

The clock is asked once for each timer that is charged.
-/

namespace Conic

/-- A clock that counts nanoseconds. -/
structure Clock where
  /-- The answer to each question. -/
  answer : Nat → Nat
  /-- The number of questions asked so far. -/
  asked : Nat

/-- Asks for the time. -/
def Clock.now (c : Clock) : Nat × Clock := (c.answer c.asked, { c with asked := c.asked + 1 })

/-- A timer that runs. -/
structure Running where
  /-- Its key. -/
  key : String
  /-- When it was started or resumed. -/
  since : Nat

/-- Timers and the time that each of them has measured. -/
structure Timers where
  /-- The running timers, the outermost first. -/
  running : List Running
  /-- The running timers do not count. -/
  suspended : Bool
  /-- The time measured by each timer that was ever started, by its path. -/
  totals : List (List String × Nat)

namespace Timers

/-- No timer has been started. -/
def initial : Timers := ⟨[], false, []⟩

/-! ## Totals -/

/-- Time added to the total of a path. -/
def addTo (path : List String) (time : Nat) : List (List String × Nat) → List (List String × Nat)
  | [] => [(path, time)]
  | (p, t) :: rest => if p = path then (p, t + time) :: rest else (p, t) :: addTo path time rest

/-- The time measured by the timer of a path, if it was ever started. -/
def elapsed? (T : Timers) (path : List String) : Option Nat :=
  (T.totals.find? fun p => p.1 == path).map (·.2)

/-- The time measured by all outermost timers. -/
def total (T : Timers) : Nat :=
  (T.totals.filter fun p => p.1.length == 1).foldr (fun p n => p.2 + n) 0

/-! ## Running timers -/

/-- The path of the innermost running timer. -/
def path (T : Timers) : List String := T.running.map (·.key)

/-- Adds what the clock says to the total of a path. -/
def charge (path : List String) (since : Nat) (s : Clock × Timers) : Clock × Timers :=
  let (now, clock) := s.1.now
  (clock, { s.2 with totals := addTo path (now - since) s.2.totals })

/-- Starts a timer beneath the innermost running one. -/
def start (key : String) (s : Clock × Timers) : Clock × Timers :=
  let (now, clock) := s.1.now
  let T : Timers := { s.2 with running := s.2.running ++ [⟨key, now⟩] }
  (clock, { T with totals := addTo T.path 0 T.totals })

/-- Stops the innermost running timer.  Without one, nothing happens. -/
def stop (s : Clock × Timers) : Clock × Timers :=
  match s.2.running.getLast? with
  | none => s
  | some r =>
    let (clock, T) := if s.2.suspended then s else charge s.2.path r.since s
    (clock, { T with running := T.running.dropLast })

/-- Charges running timers from the outermost to the innermost.  `outer` is the
path above them. -/
def chargeAll (outer : List String) : List Running → Clock × Timers → Clock × Timers
  | [], s => s
  | r :: rest, s =>
    let path := outer ++ [r.key]
    chargeAll path rest (charge path r.since s)

/-- Charges the running timers, which do not count from now on. -/
def suspend (s : Clock × Timers) : Clock × Timers :=
  if s.2.suspended then s
  else
    let (clock, T) := chargeAll [] s.2.running s
    (clock, { T with suspended := true })

/-- Lets the running timers count again. -/
def resume (s : Clock × Timers) : Clock × Timers :=
  if s.2.suspended then
    let (now, clock) := s.1.now
    (clock, { s.2 with
      suspended := false
      running := s.2.running.map fun r => { r with since := now } })
  else s

@[simp] theorem suspended_initial : initial.suspended = false := rfl

/-- Suspending twice is suspending once. -/
theorem suspend_suspend (s : Clock × Timers) : suspend (suspend s) = suspend s := by
  unfold suspend
  split <;> simp_all

end Timers

end Conic
