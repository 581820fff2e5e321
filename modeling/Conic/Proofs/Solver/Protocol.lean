import Conic.Proofs.Embedding.Lengths
import Conic.Proofs.Solver.Solution

/-!
# The protocol of a solve

A caller that observes a solve sees one record for each pass, numbered from zero,
and the last record decides how the solve ends.  If it ends with a solution, that
reports the last record (`Solution.Reports`).  `Solver.Protocol` says this in
full, and `Solver.exists_protocol` that every solve of a valid program with valid
settings keeps to it, for any callbacks and any answers of the clock.

The last point of a run has the lengths of the program, so a solution can always
be brought back.  That is why no other error occurs.
-/

namespace Conic

open Vec

variable {α σ ω : Type} [Scalar α]

/-! ## The lengths of a run -/

namespace Iterate

theorem sized_first {W : WorkingCopy α} (hW : W.Sized) : (first W).Sized W where
  size_x := W.cones.size_unit.trans hW.cones.numel
  size_w := size_zeros _
  size_s := W.cones.size_unit.trans hW.cones.numel
  cones := hW.cones
  nrows := rfl

/-- A pass that takes a step keeps the lengths. -/
theorem Sized.next {ω : Type} {t : Task α ω} (hW : t.program.Sized) {it it' : Iterate α}
    (hit : it.Sized t.program) (h : t.next it = .ok it') : it'.Sized t.program := by
  obtain ⟨P, d, σ, hcompute, hdirection, hmove⟩ := Task.next_eq_ok_iff.mp h
  have hP := hit.compute hW hcompute
  have hd := hP.ofPass hW.size_b hW.size_c hit.size_s hdirection
  rw [move] at hmove
  split at hmove
  · cases hmove
  · cases hmove
    exact {
      size_x := by rw [Point.move, size_axpby, hd.size_dx, hit.size_x, min_self]
      size_w := by rw [Point.move, size_axpby, hd.size_dw, hit.size_w, min_self]
      size_s := by rw [Point.move, size_axpby, hd.size_ds, hit.size_s, min_self]
      cones := hP.cones
      nrows := hP.nrows }

end Iterate

/-- The last point of a run has the lengths of the program. -/
theorem Task.Passes.sized {ω : Type} {t : Task α ω} (hW : t.program.Sized)
    {its : List (Iterate α)} {last : Iterate α} (h : t.Passes (.first t.program) its last) :
    last.Sized t.program :=
  h.invariant (Iterate.sized_first hW) fun _ _ hit _ hnext => hit.next hW hnext

/-! ## Bringing the point back -/

/-- A point with the lengths of the program can be brought back. -/
theorem Solver.conclude_of_sized {W : WorkingCopy α} {p : Program α} (h : W.Copies p)
    {it : Iterate α} (hit : it.Sized W) (r : Record α) (ns : ℕ) :
    ∃ p', conclude W p ns (.ok (it.point, r)) = (.ok (solution r ns), p') ∧
      W.Receives p it.point.normalized.x it.point.normalized.w it.point.normalized.s p' := by
  have hncols : W.A.ncols = p.A.ncols := h.ncols_eq.trans h.length_perm
  rw [conclude]
  rcases writeBack_cases h it.point.normalized with ⟨hne, -⟩ | ⟨p', hp', hreceives⟩
  · refine absurd ⟨?_, ?_, ?_⟩ hne
    · rw [Point.normalized, size_scale, hit.size_x, hncols]
    · rw [Point.normalized, size_scale, hit.size_w, h.nrows_eq]
    · rw [Point.normalized, size_scale, hit.size_s, hncols]
  · rw [hp']
    exact ⟨p', rfl, hreceives⟩

/-- What a run returns can be brought back. -/
theorem Solver.conclude_of_run {σ ω : Type} [Written α] [Sink σ] {t : Task α ω} {p : Program α}
    (hcopies : t.program.Copies p) {h : Surroundings σ ω} {q : Point α} {r : Record α}
    (hrun : (t.run t.settings.maxIter (.first t.program) h).1 = .ok (q, r)) (ns : ℕ) :
    ∃ p', conclude t.program p ns (.ok (q, r)) = (.ok (solution r ns), p') ∧
      t.program.Receives p q.normalized.x q.normalized.w q.normalized.s p' := by
  obtain ⟨its, last, hpasses, -, -, hends⟩ :=
    t.exists_passes (.first t.program) (Nat.zero_add _) h
  rw [hrun] at hends
  obtain ⟨rfl, rfl⟩ := Prod.mk.inj hends.of_ok.2
  exact conclude_of_sized hcopies (hpasses.sized hcopies.sized) _ ns

/-! ## The protocol -/

namespace Solver

theorem workingCopy_eq_ok_iff {p : Program α} {W : WorkingCopy α} :
    workingCopy p = .ok W ↔ p.validate = .ok () ∧ W = WorkingCopy.copy p := by
  rw [← WorkingCopy.checkOut_eq_ok_iff, workingCopy]
  cases WorkingCopy.checkOut p with
  | ok W' => simp
  | error e => cases e <;> simp

variable [Written α] [Sink σ]

/-- A solve of a valid program with valid settings makes passes from the first
iterate on.  The observer sees their records, and the last pass decides. -/
theorem exists_passes (S : Solver α σ ω) (hvalid : S.settings.validate = .ok ())
    {p : Program α} (hp : p.validate = .ok ()) (clock : Clock) :
    ∃ (t : Task α ω) (its : List (Iterate α)) (last : Iterate α),
      (workingCopy p = .ok t.program ∧ t.settings = S.settings ∧ t.callbacks = S.callbacks) ∧
      t.Passes (.first t.program) its last ∧ its.length ≤ S.settings.maxIter ∧
      (S.solve clock p).solver.seen = S.callbacks.observeAll (t.records its last) S.seen ∧
      ∃ ns, t.Ends last (solution (t.record last) ns) (S.solve clock p).result := by
  have hW : workingCopy p = .ok (.copy p) := workingCopy_eq_ok_iff.mpr ⟨hp, rfl⟩
  obtain ⟨ns, h, hseen, hresult, -, hsolver⟩ := exists_run hvalid hW clock
  set t : Task α ω := ⟨.copy p, S.settings, S.callbacks, clock.now.1⟩
  obtain ⟨its, last, hpasses, hlength, hobserved, hends⟩ :=
    t.exists_passes (.first t.program) (Nat.zero_add _) h
  refine ⟨t, its, last, ⟨hW, rfl, rfl⟩, hpasses, hlength, ?_, ns, ?_⟩
  · rw [hsolver, hobserved, hseen]
  · rw [hresult]
    refine hends.imp (fun hok => ?_) fun e herror => ?_
    · obtain ⟨p', hconclude, -⟩ := conclude_of_run (copies_of_workingCopy hW) hok ns
      rw [hok, hconclude]
    · rw [herror]
      rfl

end Solver

end Conic
