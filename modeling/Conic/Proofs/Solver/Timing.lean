import Conic.Output.Target
import Conic.Proofs.Timers
import Conic.Proofs.Solver.Protocol

/-!
# The timers of a solve

While the passes of a solve are made, its timer runs alone (`Solver.Timed`).  The
table and the observer are served in a pause, and a pass that does not break down
consists of three phases.  A breakdown leaves a pass in the middle of a phase, and
nobody stops that phase (`Task.leaves_advance`).  The stop that is meant for the timer
of the solve then ends the phase, and the timer of the solve is never stopped.

`Solver.timers_solve` says what is stored after every solve: unless the solve has
broken down, no timer runs and the timer of the solve covers the phases.  The ray
with a cost that cannot be squared is an example of a breakdown.
-/

namespace Conic

open Timers

variable {α σ ω : Type} [Scalar α]

/-- The result is a numerical breakdown. -/
def BreaksDown {β : Type} (r : Except (SolverError α) β) : Prop :=
  ∃ cause, r = .error (.numericalBreakdown cause)

omit [Scalar α] in
@[simp] theorem breaksDown_error {β : Type} {e : SolverError α} :
    BreaksDown (.error e : Except (SolverError α) β) ↔ ∃ cause, e = .numericalBreakdown cause := by
  simp [BreaksDown]

omit [Scalar α] in
@[simp] theorem not_breaksDown_ok {β : Type} (b : β) :
    ¬ BreaksDown (.ok b : Except (SolverError α) β) := by
  simp [BreaksDown]

/-- The timers of the phases of a pass. -/
def Task.phases : List String := ["scaling", "factorisation", "direction"]

/-! ## One pass -/

namespace Task

/-- The timing after something that may break down: `I` holds, or a phase has been
started where `I` held, and it has broken down. -/
def Leaves {β : Type} (I : Clock × Timers → Prop)
    (r : Except (SolverError α) β × Surroundings σ ω) : Prop :=
  (¬ BreaksDown r.1 ∧ I r.2.timing) ∨
    (BreaksDown r.1 ∧ ∃ k ∈ phases, ∃ s, I s ∧ r.2.timing = start k s)

/-- A pass that does not break down consists of three phases.  A breakdown cuts the
second or the third one off. -/
theorem leaves_advance {I : Clock × Timers → Prop}
    (hphase : ∀ s, I s → ∀ k ∈ phases, I (phase k s)) (t : Task α ω) (it : Iterate α)
    {h : Surroundings σ ω} (hI : I h.timing) : Leaves I (t.advance it h) := by
  have hscaling : I (phase "scaling" h.timing) := hphase _ hI _ (by simp [phases])
  have hfactorisation : I (phase "factorisation" (phase "scaling" h.timing)) :=
    hphase _ hscaling _ (by simp [phases])
  have hdirection := hphase _ hfactorisation "direction" (by simp [phases])
  rw [advance]
  simp only
  cases ScaledPoint.compute t.program t.settings it.cones it.schur it.point with
  | error e => exact .inr ⟨⟨e, rfl⟩, "factorisation", by simp [phases], _, hscaling, rfl⟩
  | ok P =>
    simp only
    cases Direction.ofPass t.program t.settings (.of t.program it.point) it.point P
        (Iterate.centre t.program it.point) with
    | error e => exact .inr ⟨⟨e, rfl⟩, "direction", by simp [phases], _, hfactorisation, rfl⟩
    | ok d =>
      refine .inl ⟨?_, hdirection⟩
      rintro ⟨cause, hmove⟩
      simp only [Iterate.move] at hmove
      split at hmove <;> cases hmove

variable [Written α] [Sink σ]

/-- What pauses, phases and questions to the clock keep holds when a run ends, or when
the phase was started in which it breaks down. -/
theorem leaves_run {I : Clock × Timers → Prop} (hpause : ∀ s, I s → I (pause s))
    (hnow : ∀ s, I s → I (s.1.now.2, s.2)) (hphase : ∀ s, I s → ∀ k ∈ phases, I (phase k s))
    (t : Task α ω) (n : ℕ) (it : Iterate α) {h : Surroundings σ ω} (hI : I h.timing) :
    Leaves I (t.run n it h) := by
  induction n generalizing it h with
  | zero =>
    have hshow : I (t.show (it.measures t.program).record h).timing := hpause _ hI
    rw [run.eq_def]
    simp only
    split
    case h_4 => split <;> exact .inl ⟨by simp, hshow⟩
    all_goals exact .inl ⟨by simp, hshow⟩
  | succ n ih =>
    have hshow : I (t.show (it.measures t.program).record h).timing := hpause _ hI
    have hasked : I (t.show (it.measures t.program).record h).now.2.timing := hnow _ hshow
    have hadvance := t.leaves_advance hphase it hasked
    rw [run.eq_def]
    simp only
    split
    case h_4 =>
      split
      · exact .inl ⟨by simp, hshow⟩
      split
      · exact .inl ⟨by simp, hasked⟩
      split
      next e h' heq =>
        rw [heq] at hadvance
        simpa only [Leaves, breaksDown_error] using hadvance
      next it' h' heq =>
        rw [heq] at hadvance
        obtain ⟨-, hI'⟩ | ⟨⟨_, hbreaks⟩, -⟩ := hadvance
        · exact ih it' hI'
        · cases hbreaks
    all_goals exact .inl ⟨by simp, hshow⟩

end Task

/-! ## A whole solve -/

namespace Solver

/-- The paths of the timers of a solve. -/
def paths : List (List String) :=
  ["setup"] :: ["solve"] :: Task.phases.map fun k => ["solve", k]

/-- The clock and the timers while the timer of the solve runs. -/
structure Timed (answer : ℕ → ℕ) (s : Clock × Timers) : Prop where
  /-- The clock gives the answers it was going to give. -/
  clock : s.1.answer = answer
  /-- No other timer runs, and this one covers the phases of the passes. -/
  alone : ∃ since, Alone "solve" since s ∧
    (Monotone answer → Covers "solve" Task.phases since s)
  /-- No other timer has been started. -/
  only : Only paths s.2.totals

namespace Timed

variable {answer : ℕ → ℕ} {s : Clock × Timers}

theorem now (h : Timed answer s) : Timed answer (s.1.now.2, s.2) := by
  obtain ⟨hclock, ⟨since, halone, hcovers⟩, honly⟩ := h
  exact ⟨hclock, ⟨since, ⟨halone.running, halone.counting⟩, fun h => (hcovers h).now⟩, honly⟩

theorem pause (h : Timed answer s) : Timed answer (pause s) := by
  obtain ⟨hclock, ⟨since, halone, hcovers⟩, honly⟩ := h
  refine ⟨?_, ⟨_, halone.pause, fun h => (hcovers h).pause halone⟩, ?_⟩
  · rw [halone.pause_eq]
    exact hclock
  · rw [halone.pause_eq]
    exact honly.addTo (by simp [paths]) _

theorem phase (h : Timed answer s) {k : String} (hk : k ∈ Task.phases) :
    Timed answer (phase k s) := by
  obtain ⟨hclock, ⟨since, halone, hcovers⟩, honly⟩ := h
  have hpath : ["solve", k] ∈ paths := by simpa [paths] using hk
  refine ⟨?_, ⟨since, halone.phase k, fun h => (hcovers h).phase halone (by decide) hk⟩, ?_⟩
  · rw [phase_eq k halone.counting]
    exact hclock
  · rw [phase_eq k halone.counting, halone.path_eq]
    exact (honly.addTo hpath 0).addTo hpath _

/-- The timer of the solve is the last one that is stopped. -/
theorem stop (h : Timed answer s) : (stop s).2.running = [] ∧ (stop s).2.suspended = false ∧
    Only paths (stop s).2.totals ∧ ∃ total, (stop s).2.elapsed? ["solve"] = some total ∧
      (Monotone answer → beneath "solve" Task.phases (stop s).2 ≤ total) := by
  obtain ⟨-, ⟨since, halone, hcovers⟩, honly⟩ := h
  have htotal : (Timers.stop s).2.elapsed? ["solve"] =
      some ((Timers.stop s).2.time ["solve"]) := by
    rw [halone.stop_eq, time, elapsed?_addTo, if_pos rfl, Option.getD_some]
  refine ⟨by rw [halone.stop_eq], by rw [halone.stop_eq], ?_, _, htotal,
    fun h => (hcovers h).stop halone⟩
  rw [halone.stop_eq]
  exact honly.addTo (by simp [paths]) _

/-- A phase that is cut off is stopped in place of the solve. -/
theorem stop_start (h : Timed answer s) {k : String} (hk : k ∈ Task.phases) :
    (Timers.stop (start k s)).2.path = ["solve"] ∧
    (Timers.stop (start k s)).2.suspended = false ∧
    Only paths (Timers.stop (start k s)).2.totals := by
  obtain ⟨-, ⟨since, halone, -⟩, honly⟩ := h.phase hk
  exact ⟨halone.path_eq, halone.counting, honly⟩

end Timed

/-- The timing when the passes begin. -/
def opening (clock : Clock) : Clock × Timers :=
  start "solve" (pause (phase "setup" (clock, .initial)))

theorem timed_opening (clock : Clock) : Timed clock.answer (opening clock) := by
  have hopening : opening clock = ({ clock with asked := clock.asked + 4 },
      ⟨[⟨"solve", clock.answer (clock.asked + 3)⟩], false,
        [(["setup"], 0 + clock.gap), (["solve"], 0)]⟩) := by rfl
  rw [hopening]
  refine ⟨rfl, ⟨_, ⟨rfl, rfl⟩, fun hmonotone => ⟨hmonotone, hmonotone (Nat.le_succ _), ?_⟩⟩, ?_⟩
  · exact Nat.add_le_add_left (hmonotone (Nat.le_succ _)) 0
  · simp [Only, paths]

/-- A run that breaks down is concluded with the breakdown, and no other run is. -/
theorem breaksDown_conclude {W : WorkingCopy α} {p : Program α} (ns : ℕ)
    (r : Except (SolverError α) (Point α × Record α)) :
    BreaksDown (conclude W p ns r).1 ↔ BreaksDown r := by
  cases r with
  | error e => rw [conclude, breaksDown_error, breaksDown_error]
  | ok found =>
    rw [conclude]
    split
    · simp
    · simp

variable [Written α] [Sink σ]

/-- A solve stores the timers of a run, which starts with the opening, after it has
stopped one of them. -/
theorem exists_timed_run {S : Solver α σ ω} (hvalid : S.settings.validate = .ok ())
    {p : Program α} {W : WorkingCopy α} (hW : workingCopy p = .ok W) (clock : Clock) :
    ∃ (ns : ℕ) (h : Surroundings σ ω), h.timing = opening clock.now.2 ∧
      let run := Task.run ⟨W, S.settings, S.callbacks, clock.now.1⟩ S.settings.maxIter (.first W) h
      (S.solve clock p).result = (conclude W p ns run.1).1 ∧
      (S.solve clock p).solver.timers = some (stop run.2.timing).2 := by
  rw [solve, hvalid]
  simp only [hW]
  exact ⟨_, _, rfl, rfl, rfl⟩

/-- What a solve of a valid program stores. -/
structure Stored (clock : Clock) (O : Outcome α σ ω) (T : Timers) : Prop where
  /-- The timers are stored. -/
  stored : O.solver.timers = some T
  /-- They are not suspended. -/
  counting : T.suspended = false
  /-- All of them belong to the solve, and none was started beneath a phase. -/
  only : Only paths T.totals
  /-- After a breakdown the timer of the solve still runs. -/
  broken : BreaksDown O.result → T.path = ["solve"]
  /-- Otherwise no timer runs. -/
  closed : ¬ BreaksDown O.result → T.running = []
  /-- Then the timer of the solve has measured at least what the phases have measured
  together, if the clock never goes back. -/
  covers : ¬ BreaksDown O.result → ∃ total, T.elapsed? ["solve"] = some total ∧
    (Monotone clock.answer → beneath "solve" Task.phases T ≤ total)

/-- A solve with valid settings stores its timers.  They are closed if and only if it has
not broken down, and then the timer of the solve covers its phases.  On a program that is
not valid the timers of the solve before are kept. -/
theorem timers_solve (S : Solver α σ ω) (hvalid : S.settings.validate = .ok ()) (clock : Clock)
    (p : Program α) :
    if p.validate = .ok () then ∃ T, Stored clock (S.solve clock p) T
    else (S.solve clock p).solver.timers = S.timers := by
  split
  next hp =>
    have hW : workingCopy p = .ok (.copy p) := workingCopy_eq_ok_iff.mpr ⟨hp, rfl⟩
    obtain ⟨ns, h, htiming, hresult, htimers⟩ := exists_timed_run hvalid hW clock
    set t : Task α ω := ⟨.copy p, S.settings, S.callbacks, clock.now.1⟩
    have hbroken : BreaksDown (S.solve clock p).result ↔
        BreaksDown (t.run S.settings.maxIter (.first (.copy p)) h).1 := by
      rw [hresult]
      exact breaksDown_conclude ns _
    rcases t.leaves_run (I := Timed clock.answer) (fun _ => Timed.pause) (fun _ => Timed.now)
        (fun _ hs _ => hs.phase) S.settings.maxIter (.first (.copy p))
        (htiming ▸ timed_opening clock.now.2) with
      ⟨hwhole, htimed⟩ | ⟨hbreaks, k, hk, s, htimed, hstart⟩
    · rw [← hbroken] at hwhole
      obtain ⟨hrunning, hcounting, honly, hcovers⟩ := htimed.stop
      exact ⟨_, htimers, hcounting, honly, fun h => absurd h hwhole, fun _ => hrunning,
        fun _ => hcovers⟩
    · rw [← hbroken] at hbreaks
      obtain ⟨hpath, hcounting, honly⟩ := htimed.stop_start hk
      rw [hstart] at htimers
      exact ⟨_, htimers, hcounting, honly, fun _ => hpath, absurd hbreaks, absurd hbreaks⟩
  next hp =>
    cases hW : workingCopy p with
    | ok W => exact absurd (workingCopy_eq_ok_iff.mp hW).1 hp
    | error e =>
      obtain ⟨clock', hsolve⟩ := exists_solve_of_workingCopy_eq_error hvalid hW clock
      rw [hsolve]

end Solver

/-! ## A ray -/

/-- The program that minimizes `cost * x` on the half line. -/
def Program.ray (cost : Float) : Program Float where
  A := ⟨0, 1, #[0, 0], #[], #[]⟩
  b := #[]
  c := #[cost]
  x := #[0]
  w := #[]
  s := #[0]
  cones := [.nonnegative 0]
  map := .identity 1

namespace Solver

/-- A solver with the default settings that nobody watches. -/
def unwatched : Solver Float PrintTarget Unit :=
  ⟨Settings.default, .none, .initial, (), none⟩

/-- A clock that goes on by one whenever it is asked. -/
def ticking : Clock := ⟨id, 0⟩

/-- The solve of a ray of cost one succeeds, and all its timers are closed. -/
theorem timers_solve_ray :
    unwatched.settings.validate = .ok () ∧ (Program.ray 1).validate = .ok () ∧
      ∃ T, Stored ticking (unwatched.solve ticking (.ray 1)) T ∧ T.running = [] := by
  have hvalid : unwatched.settings.validate = .ok () := by decide +kernel
  have hp : (Program.ray 1).validate = .ok () := by decide +kernel
  have hresult : (unwatched.solve ticking (.ray 1)).result.toBool = true := by decide +kernel
  have htimers := timers_solve unwatched hvalid ticking (.ray 1)
  rw [if_pos hp] at htimers
  obtain ⟨T, hT⟩ := htimers
  refine ⟨hvalid, hp, T, hT, hT.closed ?_⟩
  rintro ⟨cause, hbreaks⟩
  rw [hbreaks] at hresult
  cases hresult

/-- The solve of a ray whose cost has no square breaks down.  Its timer still runs, and has
measured one unit of time although the phases have measured three. -/
theorem solve_running_ray :
    unwatched.settings.validate = .ok () ∧ (Program.ray 1e200).validate = .ok () ∧
      (unwatched.solve ticking (.ray 1e200)).solver.timers.map
        (fun T => (T.path, T.elapsed? ["solve"], beneath "solve" Task.phases T)) =
          some (["solve"], some 1, 3) := by
  decide +kernel

end Solver

end Conic
