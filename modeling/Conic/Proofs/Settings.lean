import Mathlib
import Conic.Settings

/-!
# Admissible settings

Settings are admissible if their time limit is not negative and each setting that has
a range lies in it.  A floating point value that lies in a range is finite
(`Settings.isFinite_of_admits`), so an infinite time limit is the only admissible value
that is not.

The settings are also given by a list of slots.  Copying all slots copies the settings
(`Settings.foldl_copy`).

A draft stands for the settings that have its values, and the defaults elsewhere
(`Settings.Draft.Fills`).  That is said slot by slot, and since the slots are all settings
there is one choice of such settings (`Settings.Draft.Fills.unique`).  A draft is checked
against a list of its own.  What it does not give is not checked, so the defaults have to be
admissible for the two checks to agree.  Then they judge each setting alike and in the same
order (`Settings.Draft.verdicts_complete`), and a draft is built exactly if the settings
that it stands for are admissible (`Settings.Draft.build_agrees`).
-/

namespace Conic.Settings

variable {α : Type} [Scalar α] {s : Settings α}

/-- Settings are refused exactly if one of them lies outside its range. -/
theorem validate_eq_ok_iff : s.validate = .ok () ↔
    admitsTimeLimit s.timeLimit = true ∧ ∀ r ∈ ranges s, r.2.1.admits r.2.2 = true := by
  have hfind : (ranges s).find? (fun r => !r.2.1.admits r.2.2) = none ↔
      ∀ r ∈ ranges s, r.2.1.admits r.2.2 = true := by
    simp [List.find?_eq_none]
  rw [validate, ← hfind]
  split
  next htime =>
    have hrefused : admitsTimeLimit s.timeLimit = false := by simpa using htime
    simp [hrefused]
  next htime =>
    have hadmitted : admitsTimeLimit s.timeLimit = true := by simpa using htime
    split
    next hsome => simp [hsome]
    next hnone => simp [hnone, hadmitted]

end Conic.Settings

namespace Conic

/-! ## Finite values -/

namespace Floats

open Float.Model

variable {a b x : Float}

/-- The order of floating point values is that of the unpacked ones. -/
theorem lt_iff : a < b ↔ a.toModel.unpack.compare b.toModel.unpack = some .lt := by
  show Float.lt a b = true ↔ _
  simp only [Float.lt, Float.Model.lt, LT.lt]
  simp [UnpackedFloat.lt]

theorem le_iff : a ≤ b ↔ (a.toModel.unpack.compare b.toModel.unpack).any (·.isLE) = true := by
  show Float.le a b = true ↔ _
  simp only [Float.le, Float.Model.le, LE.le]
  simp [UnpackedFloat.le]
  exact Bool.decide_coe _

theorem beq_iff : (a == b) = true ↔ a.toModel.unpack.compare b.toModel.unpack = some .eq := by
  show Float.beq a b = true ↔ _
  simp only [Float.beq, Float.Model.beq, BEq.beq]
  simp [UnpackedFloat.beq]

theorem le_of_lt (h : a < b) : a ≤ b := by
  rw [lt_iff] at h
  rw [le_iff, h]
  rfl

/-- Above a finite value lies nothing that is not finite, except for infinity. -/
theorem eq_infinity_of_le (ha : a.isFinite = true) (h : a ≤ x) (hx : x.isFinite = false) :
    x.toModel.unpack = .infinity .positive := by
  rw [le_iff] at h
  change a.toModel.unpack.isFinite = true at ha
  change x.toModel.unpack.isFinite = false at hx
  cases ha' : a.toModel.unpack with
  | infinity sign => rw [ha'] at ha; cases ha
  | notANumber => rw [ha'] at ha; cases ha
  | _ =>
    cases hx' : x.toModel.unpack with
    | infinity sign =>
      cases sign with
      | positive => rfl
      | negative => rw [ha', hx'] at h; cases h
    | notANumber => rw [ha', hx'] at h; cases h
    | _ => rw [hx'] at hx; cases hx

/-- Infinity is below nothing. -/
theorem not_infinity_lt (hx : x.toModel.unpack = .infinity .positive) : ¬ x < b := by
  rw [lt_iff, hx]
  cases b.toModel.unpack with
  | infinity sign => cases sign <;> nofun
  | _ => nofun

/-- Infinity equals infinity alone. -/
theorem eq_infinity_of_beq (hx : x.toModel.unpack = .infinity .positive) (h : (x == b) = true) :
    b.toModel.unpack = .infinity .positive := by
  rw [beq_iff, hx] at h
  cases hb : b.toModel.unpack with
  | infinity sign =>
    rw [hb] at h
    cases sign with
    | positive => rfl
    | negative => cases h
  | _ => rw [hb] at h; cases h

end Floats

namespace Settings

/-- A floating point value that lies in a range is finite. -/
theorem isFinite_of_admits {r : Range} {v : Float} (h : r.admits v = true) :
    v.isFinite = true := by
  have hzero : (0.0 : Float).isFinite = true := by decide +kernel
  have hone : (1.0 : Float).isFinite = true := by decide +kernel
  have hbounded (hpos : (0.0 : Float) < v) (hle : v < 1.0 ∨ (v == 1.0) = true) :
      v.isFinite = true := by
    by_contra hv
    have hinfinity := Floats.eq_infinity_of_le hzero (Floats.le_of_lt hpos) (by simpa using hv)
    rcases hle with hlt | heq
    · exact Floats.not_infinity_lt hinfinity hlt
    · have hone' := Floats.eq_infinity_of_beq hinfinity heq
      change (1.0 : Float).toModel.unpack.isFinite = true at hone
      rw [hone'] at hone
      cases hone
  cases r with
  | fraction =>
    rw [Range.admits, Bool.and_eq_true, Bool.or_eq_true, decide_eq_true_eq, decide_eq_true_eq] at h
    exact hbounded h.1 h.2
  | openFraction =>
    rw [Range.admits, Bool.and_eq_true, decide_eq_true_eq, decide_eq_true_eq] at h
    exact hbounded h.1 (.inl h.2)
  | positive => exact (Bool.and_eq_true_iff.mp h).1
  | nonnegative => exact (Bool.and_eq_true_iff.mp h).1

/-- A time limit that is admissible is finite or infinity. -/
theorem isFinite_of_admitsTimeLimit {t : Float} (h : admitsTimeLimit t = true)
    (ht : (t == 1.0 / 0.0) = false) : t.isFinite = true := by
  have hzero : (0 : Float).isFinite = true := by decide +kernel
  have htop : (1.0 / 0.0 : Float).toModel.unpack = .infinity .positive :=
    Floats.eq_infinity_of_le hzero (by decide +kernel) (by decide +kernel)
  by_contra hfinite
  have hinfinity := Floats.eq_infinity_of_le hzero (of_decide_eq_true h) (by simpa using hfinite)
  have hequal : (t == 1.0 / 0.0) = true := by
    rw [Floats.beq_iff, hinfinity, htop]
    rfl
  rw [hequal] at ht
  cases ht

/-! ## Slots -/

section Slots

variable {α : Type}

/-- Copies one setting. -/
def copy (s acc : Settings α) (slot : String × Slot (fun β => β) α) : Settings α :=
  match slot.2 with
  | .count get set => set (get s) acc
  | .seconds get set => set (get s) acc
  | .flag get set => set (get s) acc
  | .scalar get set => set (get s) acc

/-- All settings have a slot. -/
theorem foldl_copy (s start : Settings α) : (slots (fun β => β) α).foldl (copy s) start = s := by
  cases s
  cases start
  simp only [slots, List.foldl_cons, List.foldl_nil, copy]

/-- The names of the settings are different. -/
theorem nodup_slots : ((slots (fun β => β) α).map Prod.fst).Nodup := by
  simp [slots]

end Slots

/-! ## Drafts -/

section Drafts

variable {α : Type} [Scalar α]

/-- Refuses the first name that is not admitted. -/
def refuseFirst (verdicts : List (String × Bool)) : Except SettingsError Unit :=
  match verdicts.find? fun v => !v.2 with
  | some v => .error (.badFieldValue v.1)
  | none => .ok ()

theorem refuseFirst_cons (name : String) (admitted : Bool) (rest : List (String × Bool)) :
    refuseFirst ((name, admitted) :: rest) =
      if !admitted then .error (.badFieldValue name) else refuseFirst rest := by
  cases admitted <;> rfl

theorem refuseFirst_map {β : Type} (admits : String × β → Bool) (l : List (String × β)) :
    refuseFirst (l.map fun r => (r.1, admits r)) =
      match l.find? fun r => !admits r with
      | some r => .error (.badFieldValue r.1)
      | none => .ok () := by
  rw [refuseFirst, List.find?_map]
  simp only [Function.comp_def]
  cases l.find? fun r => !admits r <;> rfl

/-- The checked settings, and whether their values are admitted. -/
def verdicts (s : Settings α) : List (String × Bool) :=
  ("time_limit", admitsTimeLimit s.timeLimit) ::
    (ranges s).map fun r => (r.1, r.2.1.admits r.2.2)

theorem validate_eq_refuseFirst (s : Settings α) : s.validate = refuseFirst s.verdicts := by
  rw [validate, verdicts, refuseFirst_cons, refuseFirst_map]
  cases (ranges s).find? fun r => !r.2.1.admits r.2.2 <;> rfl

namespace Draft

/-- The checked settings, and whether their values are admitted.  No value always is. -/
def verdicts (d : Draft α) : List (String × Bool) :=
  ("time_limit", d.timeLimit.all admitsTimeLimit) ::
    (ranges d).map fun r => (r.1, r.2.2.all r.2.1.admits)

theorem validate_eq_refuseFirst (d : Draft α) : d.validate = refuseFirst d.verdicts := by
  rw [validate, verdicts, refuseFirst_cons, refuseFirst_map]
  cases (ranges d).find? fun r => !r.2.2.all r.2.1.admits <;> rfl

/-- No value is judged like the default. -/
theorem all_eq_getD {β : Type} {admits : β → Bool} {standard : β} (h : admits standard = true)
    (value : Option β) : value.all admits = admits (value.getD standard) := by
  cases value with
  | none => exact h.symm
  | some v => rfl

/-- If the defaults are admitted, a draft is judged like its completion. -/
theorem verdicts_complete (h : (default : Settings α).validate = .ok ()) (d : Draft α) :
    d.verdicts = d.complete.verdicts := by
  obtain ⟨htime, hranges⟩ := validate_eq_ok_iff.mp h
  have hrange (range : Range) (standard : α)
      (hmem : (range, standard) ∈ (Settings.ranges default).map Prod.snd) (value : Option α) :
      value.all range.admits = range.admits (value.getD standard) := by
    obtain ⟨r, hr, heq⟩ := List.mem_map.mp hmem
    obtain ⟨rfl, rfl⟩ := Prod.ext_iff.mp heq
    exact all_eq_getD (hranges r hr) value
  -- the two lists agree entry by entry in the names and in the ranges
  simp only [verdicts, Settings.verdicts, ranges, Settings.ranges, complete, List.map_cons,
    List.map_nil, List.cons.injEq, Prod.mk.injEq, true_and, and_true]
  refine ⟨all_eq_getD htime _, ?_, ?_, ?_, ?_, ?_, ?_, ?_, ?_, ?_, ?_, ?_, ?_, ?_, ?_, ?_, ?_⟩
  all_goals exact hrange _ _ (by simp [Settings.ranges]) _

/-- A setting has the value that the draft gives it, and its default if the draft gives
none.  The first slot is that of the draft, and the second one that of the settings. -/
inductive FillsSlot (d : Draft α) (s : Settings α) :
    String × Slot Option α → String × Slot (fun β => β) α → Prop
  | count {name : String} {given : Draft α → Option ℕ} {get : Settings α → ℕ} {put set} :
    get s = (given d).getD (get default) →
      FillsSlot d s (name, .count given put) (name, .count get set)
  | seconds {name : String} {given : Draft α → Option Float} {get : Settings α → Float} {put set} :
    get s = (given d).getD (get default) →
      FillsSlot d s (name, .seconds given put) (name, .seconds get set)
  | flag {name : String} {given : Draft α → Option Bool} {get : Settings α → Bool} {put set} :
    get s = (given d).getD (get default) →
      FillsSlot d s (name, .flag given put) (name, .flag get set)
  | scalar {name : String} {given : Draft α → Option α} {get : Settings α → α} {put set} :
    get s = (given d).getD (get default) →
      FillsSlot d s (name, .scalar given put) (name, .scalar get set)

/-- The settings have the values of the draft, and the defaults elsewhere. -/
def Fills (d : Draft α) (s : Settings α) : Prop :=
  List.Forall₂ (FillsSlot d s) (slots Option α) (slots (fun β => β) α)

theorem fills_complete (d : Draft α) : d.Fills d.complete := by
  rw [Fills, slots, slots]
  repeat' constructor

/-- Two settings that a draft gives the same value are copied alike. -/
theorem FillsSlot.copy_eq {d : Draft α} {s s' : Settings α} {given : String × Slot Option α}
    {slot : String × Slot (fun β => β) α} (h : FillsSlot d s given slot)
    (h' : FillsSlot d s' given slot) (acc : Settings α) : copy s acc slot = copy s' acc slot := by
  cases h with
  | count hvalue => cases h' with | count hvalue' => simp only [copy, hvalue, hvalue']
  | seconds hvalue => cases h' with | seconds hvalue' => simp only [copy, hvalue, hvalue']
  | flag hvalue => cases h' with | flag hvalue' => simp only [copy, hvalue, hvalue']
  | scalar hvalue => cases h' with | scalar hvalue' => simp only [copy, hvalue, hvalue']

/-- Two settings that fill the same slots of a draft are copied alike. -/
theorem foldl_copy_eq {d : Draft α} {s s' : Settings α} {given : List (String × Slot Option α)}
    {taken : List (String × Slot (fun β => β) α)} (h : List.Forall₂ (FillsSlot d s) given taken)
    (h' : List.Forall₂ (FillsSlot d s') given taken) (acc : Settings α) :
    taken.foldl (copy s') acc = taken.foldl (copy s) acc := by
  induction h generalizing acc with
  | nil => rfl
  | cons hslot _ ih =>
    cases h' with
    | cons hslot' hrest' => rw [List.foldl_cons, List.foldl_cons, hslot'.copy_eq hslot, ih hrest']

/-- The slots are all settings, so a draft fills one choice of settings only. -/
theorem Fills.unique {d : Draft α} {s s' : Settings α} (h : d.Fills s) (h' : d.Fills s') :
    s' = s :=
  calc s' = (slots _ α).foldl (copy s') s := (foldl_copy s' s).symm
    _ = (slots _ α).foldl (copy s) s := foldl_copy_eq h h' s
    _ = s := foldl_copy s s

/-- Building a draft and checking the settings that it stands for agree. -/
structure Agrees (d : Draft α) (s : Settings α) : Prop where
  /-- The draft stands for these settings. -/
  fills : d.Fills s
  /-- It stands for no others. -/
  unique (s' : Settings α) : d.Fills s' → s' = s
  /-- Both checks give the same error. -/
  validate : d.validate = s.validate
  /-- The draft is built exactly if its settings are admissible, and it gives them. -/
  built (s' : Settings α) : d.build = .ok s' ↔ s.validate = .ok () ∧ s' = s
  /-- Otherwise the failure has the text of the error that refuses them. -/
  refused (e : BuildError) : d.build = .error e ↔
    ∃ cause, s.validate = .error cause ∧ e = .validation cause.message

theorem agrees_complete (h : (default : Settings α).validate = .ok ()) (d : Draft α) :
    d.Agrees d.complete := by
  have hvalidate : d.validate = d.complete.validate := by
    rw [validate_eq_refuseFirst, Settings.validate_eq_refuseFirst, verdicts_complete h]
  refine ⟨d.fills_complete, fun s' => d.fills_complete.unique, hvalidate, fun s' => ?_, fun e => ?_⟩
  all_goals rw [build, hvalidate]
  · cases d.complete.validate with
    | ok u => simp [eq_comm]
    | error cause => simp
  · cases d.complete.validate with
    | ok u => simp
    | error cause => simp [eq_comm]

/-- The default settings lie in their ranges. -/
theorem validate_default : (default : Settings Float).validate = .ok () := by
  decide +kernel

/-- A draft stands for the settings that have its values, and the defaults elsewhere.  It
is built exactly if they are admissible, and is refused with the text of the error that
refuses them.  In double precision this holds of every draft, and in other arithmetics if
the default settings are admissible there. -/
theorem build_agrees : (∀ d : Draft Float, ∃ s, d.Agrees s) ∧
    ∀ {β : Type} [Scalar β], (default : Settings β).validate = .ok () →
      ∀ d : Draft β, ∃ s, d.Agrees s :=
  ⟨fun d => ⟨_, agrees_complete validate_default d⟩, fun h d => ⟨_, agrees_complete h d⟩⟩

/-- A draft with three values is built, and the settings have these values and the defaults
elsewhere.  A draft with two values outside their ranges is refused, and the first one in
the order of the checks is named. -/
theorem build_agrees_goodBad :
    let good : Draft Float :=
      { empty with maxIter := some 7, verbose := some true, sigmaFixed := some 0.5 }
    let built : Settings Float := { default with maxIter := 7, verbose := true, sigmaFixed := 0.5 }
    let bad : Draft Float := { empty with muThreshold := some (0.0 / 0.0), sigmaFixed := some 1.0 }
    let refused : Settings Float := { default with muThreshold := 0.0 / 0.0, sigmaFixed := 1.0 }
    (default : Settings Float).validate = .ok () ∧
      (good.Agrees built ∧ good.build = .ok built) ∧
      bad.Agrees refused ∧ bad.build = .error (.validation "Bad value for field sigma_fixed") := by
  intro good built bad refused
  have hgood : good.Agrees built := by
    obtain ⟨s, hagrees⟩ := build_agrees.2 validate_default good
    rwa [hagrees.unique built good.fills_complete]
  have hbad : bad.Agrees refused := by
    obtain ⟨s, hagrees⟩ := build_agrees.2 validate_default bad
    rwa [hagrees.unique refused bad.fills_complete]
  have hadmitted : built.validate = .ok () := by decide +kernel
  have hrefused : refused.validate = .error (.badFieldValue "sigma_fixed") := by decide +kernel
  exact ⟨validate_default, ⟨hgood, (hgood.built _).mpr ⟨hadmitted, rfl⟩⟩, hbad,
    (hbad.refused _).mpr ⟨_, hrefused, rfl⟩⟩

end Draft

end Drafts

end Settings

end Conic
