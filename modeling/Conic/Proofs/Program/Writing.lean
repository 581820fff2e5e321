import Conic.Proofs.Json.Printing
import Conic.Proofs.Json.Records
import Conic.Proofs.Program.Reading
import Conic.Proofs.Program.VariableMap
import Conic.Proofs.Settings

/-!
# Writing a program and reading it back

A file is written from a valid program and, if any, admissible settings beside it.
Each part of the record is taken apart again by its own decoder, so the whole record is
(`ProgramFile.decode_content`), and the checks that follow have been passed before, when
the program was constructed.  `ProgramFile.read_of_write` puts this together.

Three things are asked of the numbers.  Counts have the 32 bits of a setting, vectors can
be held, and every floating point value is finite (`ProgramFile.Finite`), since the format
has no text for another one.  The values of admissible settings are finite except for the
time limit, which is closed before it is written and opened after it has been read.
-/

namespace Conic

open Json (Value)
open Json.Decoder (Stores)

/-! ## Complete values -/

namespace Json

theorem complete_ofNat (n : ℕ) : (Value.ofNat n).Complete :=
  ⟨.ofNat n, Number.Literal.proper_ofNat n, Number.Literal.chars_ofNat n⟩

theorem complete_ofFloat {x : Float} (hx : x.isFinite = true) : (Value.ofFloat x).Complete := by
  rw [Value.ofFloat, if_pos hx]
  exact ⟨Decimal.dataLiteral x, Decimal.proper_dataLiteral x, (Decimal.toList_text hx).symm⟩

theorem completeItems_iff {vs : List Value} : CompleteItems vs ↔ ∀ v ∈ vs, v.Complete := by
  induction vs with
  | nil => simp [CompleteItems]
  | cons v vs ih => simp [CompleteItems, ih]

theorem complete_list {vs : List Value} (h : ∀ v ∈ vs, v.Complete) : (Value.list vs).Complete :=
  ⟨rfl, completeItems_iff.mpr h⟩

/-- A record without members is complete. -/
theorem Value.Complete.nil : (Value.record []).Complete := ⟨rfl, trivial⟩

/-- A record stays complete with a complete value in front. -/
theorem Value.Complete.cons {name : String} {v : Value} {ms : List (String × Value)}
    (hv : v.Complete) (h : (Value.record ms).Complete) : (Value.record ((name, v) :: ms)).Complete :=
  ⟨rfl, rfl, hv, h.2⟩

theorem complete_record {ms : List (String × Value)} (h : ∀ m ∈ ms, m.2.Complete) :
    (Value.record ms).Complete := by
  induction ms with
  | nil => exact .nil
  | cons m ms ih =>
    obtain ⟨hm, hms⟩ := List.forall_mem_cons.mp h
    exact .cons hm (ih hms)

end Json

namespace ProgramFile

open Json Json.Decoder

/-- All values are finite. -/
def Finite (xs : List Float) : Prop := ∀ x ∈ xs, x.isFinite = true

/-! ## Vectors and lists -/

theorem size_ofNat {n : ℕ} (h : n < 2 ^ 64) : size (.ofNat n) = .ok n :=
  natural_ofNat (Nat.le_sub_one_of_lt h)

theorem indices_ofIndices {xs : Array ℕ} (h : ∀ x ∈ xs, x < 2 ^ 64) :
    indices (ofIndices xs.toList) = .ok xs := by
  have hlist : list size (ofIndices xs.toList) = .ok xs.toList :=
    list_map fun x hx => size_ofNat (h x (Array.mem_toList_iff.mp hx))
  rw [indices, array, hlist]
  simp [Except.map]

theorem floats_ofFloats {xs : Array Float} (h : Finite xs.toList) :
    floats (ofFloats xs) = .ok xs := by
  have hlist : list float (ofFloats xs) = .ok xs.toList :=
    list_map fun x hx => float_ofFloat (h x hx)
  rw [floats, array, hlist]
  simp [Except.map]

theorem complete_ofIndices (xs : List ℕ) : (ofIndices xs).Complete :=
  complete_list (List.forall_mem_map.mpr fun n _ => complete_ofNat n)

theorem complete_ofFloats {xs : Array Float} (h : Finite xs.toList) : (ofFloats xs).Complete :=
  complete_list (List.forall_mem_map.mpr fun x hx => complete_ofFloat (h x hx))

/-! ## The parts of a program -/

theorem matrix_ofMatrix {A : Csc Float} (hnrows : A.nrows < 2 ^ 64) (hncols : A.ncols < 2 ^ 64)
    (hcolPtr : ∀ k ∈ A.colPtr, k < 2 ^ 64) (hrowIdx : ∀ i ∈ A.rowIdx, i < 2 ^ 64)
    (hvalues : Finite A.values.toList) : matrix (ofMatrix A) = .ok A :=
  record_of_stores (by decide) <|
    .cons (store_of (size_ofNat hnrows) _) <|
    .cons (store_of (size_ofNat hncols) _) <|
    .cons (store_of (indices_ofIndices hcolPtr) _) <|
    .cons (store_of (indices_ofIndices hrowIdx) _) <|
    .cons (store_of (floats_ofFloats hvalues) _) <| .nil _

theorem variableMap_ofMap {m : VariableMap} (hcolumns : ∀ j ∈ m.columns, j < 2 ^ 64)
    (hids : ∀ v ∈ m.ids, v.index < 2 ^ 64) : variableMap (ofMap m) = .ok m := by
  have hindices : indices (ofIndices (m.ids.toList.map VariableId.index)) =
      .ok (m.ids.map VariableId.index) := by
    rw [← Array.toList_map]
    exact indices_ofIndices fun i hi => by
      obtain ⟨v, hv, rfl⟩ := Array.mem_map.mp hi
      exact hids v hv
  have hback : (m.ids.map VariableId.index).map VariableId.mk = m.ids := by
    rw [Array.map_map]
    exact Array.map_id _
  refine record_of_stores (by decide) <|
    .cons (store_of (indices_ofIndices hcolumns) _) <|
    .cons (store_of hindices _) ?_
  rw [hback]
  exact .nil _

theorem cone_ofCone {K : ConeSpec ℕ} (h : ∀ j ∈ K.indices, j < 2 ^ 64) :
    cone (ofCone K) = .ok K := by
  cases K with
  | nonnegative i =>
    have hi : size (.ofNat i) = .ok i := size_ofNat (h i (by simp [ConeSpec.indices]))
    rw [cone, ofCone]
    refine oneOf_record rfl ?_
    rw [hi]
    rfl
  | secondOrder bound vector =>
    have hvector : list size (ofIndices vector) = .ok vector :=
      list_map fun j hj => size_ofNat (h j (List.mem_cons_of_mem _ hj))
    have hrecord : (record [.of "bound" size fun v (K : ℕ × List ℕ) => (v, K.2),
        .of "vector" (list size) fun v K => (K.1, v)] (0, []))
          (.record [("bound", .ofNat bound), ("vector", ofIndices vector)]) = .ok (bound, vector) :=
      record_of_stores (by decide) <|
        .cons (store_of (size_ofNat (h bound List.mem_cons_self)) _) <|
        .cons (store_of hvector _) <| .nil _
    rw [cone, ofCone]
    refine oneOf_record rfl ?_
    rw [hrecord]
    rfl

theorem complete_ofMatrix {A : Csc Float} (hvalues : Finite A.values.toList) :
    (ofMatrix A).Complete :=
  .cons (complete_ofNat _) <| .cons (complete_ofNat _) <| .cons (complete_ofIndices _) <|
    .cons (complete_ofIndices _) <| .cons (complete_ofFloats hvalues) .nil

theorem complete_ofMap (m : VariableMap) : (ofMap m).Complete :=
  .cons (complete_ofIndices _) <| .cons (complete_ofIndices _) .nil

theorem complete_ofCone (K : ConeSpec ℕ) : (ofCone K).Complete := by
  cases K with
  | nonnegative i => exact .cons (complete_ofNat i) .nil
  | secondOrder bound vector =>
    have hcone : (Value.record [("bound", .ofNat bound), ("vector", ofIndices vector)]).Complete :=
      .cons (complete_ofNat bound) <| .cons (complete_ofIndices vector) .nil
    exact .cons hcone .nil

/-! ## Settings -/

/-- The value of a setting that is written as a floating point number. -/
def real? (s : Settings Float) : Settings.Slot (fun β => β) Float → Option Float
  | .seconds get _ => some (get s)
  | .scalar get _ => some (get s)
  | _ => none

/-- The settings that are written as floating point numbers. -/
def reals (s : Settings Float) : List Float :=
  (Settings.slots (fun β => β) Float).filterMap fun slot => real? s slot.2

/-- The counts among the settings have 32 bits. -/
def Counted (s : Settings Float) : Prop := s.maxIter < 2 ^ 32 ∧ s.refineMaxIter < 2 ^ 32

variable {s : Settings Float} {slot : String × Settings.Slot (fun β => β) Float}

theorem mem_reals (hslot : slot ∈ Settings.slots (fun β => β) Float) {x : Float}
    (hx : real? s slot.2 = some x) : x ∈ reals s :=
  List.mem_filterMap.mpr ⟨slot, hslot, hx⟩

theorem lt_of_count (h : Counted s) : ∀ slot ∈ Settings.slots (fun β => β) Float,
    ∀ get set, slot.2 = .count get set → get s < 2 ^ 32 := by
  simp only [Settings.slots, List.forall_mem_cons, List.not_mem_nil, false_implies, implies_true,
    and_true, reduceCtorEq, true_and]
  refine ⟨?_, ?_⟩
  all_goals
    intro get set heq
    obtain ⟨rfl, -⟩ := Settings.Slot.count.inj heq
  · exact h.1
  · exact h.2

theorem setting_ofNat {n : ℕ} (h : n < 2 ^ 32) : setting (.ofNat n) = .ok n :=
  natural_ofNat (Nat.le_sub_one_of_lt h)

theorem name_slotField (slot : String × Settings.Slot (fun β => β) Float) :
    (slotField slot).name = slot.1 := by
  obtain ⟨name, kind⟩ := slot
  cases kind <;> rfl

/-- A setting is stored again as it was written. -/
theorem store_slotField (hcounted : Counted s) (hreals : Finite (reals s))
    (hslot : slot ∈ Settings.slots (fun β => β) Float) (acc : Settings Float) :
    (slotField slot).store (ofSlot s slot.2) acc = .ok (Settings.copy s acc slot) := by
  have hcount := lt_of_count hcounted slot hslot
  have hreal (x : Float) (hx : real? s slot.2 = some x) : float (.ofFloat x) = .ok x :=
    float_ofFloat (hreals x (mem_reals hslot hx))
  obtain ⟨name, kind⟩ := slot
  cases kind with
  | count get set => exact store_of (setting_ofNat (hcount get set rfl)) acc
  | seconds get set => exact store_of (hreal _ rfl) acc
  | flag get set =>
    exact store_of (d := Json.Decoder.bool) (v := .bool (get s)) (b := get s) rfl acc
  | scalar get set => exact store_of (hreal _ rfl) acc

/-- Settings are stored again one after the other. -/
theorem stores_slots (hcounted : Counted s) (hreals : Finite (reals s))
    {slots : List (String × Settings.Slot (fun β => β) Float)}
    (hslots : ∀ slot ∈ slots, slot ∈ Settings.slots (fun β => β) Float) (acc : Settings Float) :
    Stores (slots.map slotField) acc (slots.map fun slot => (slot.1, ofSlot s slot.2))
      (slots.foldl (Settings.copy s) acc) := by
  induction slots generalizing acc with
  | nil => exact .nil acc
  | cons slot slots ih =>
    obtain ⟨hslot, hslots⟩ := List.forall_mem_cons.mp hslots
    rw [List.map_cons, List.map_cons, ← name_slotField slot]
    exact .cons (store_slotField hcounted hreals hslot acc) (ih hslots _)

theorem settingsRecord_ofSettings (hcounted : Counted (closeTimeLimit s))
    (hreals : Finite (reals (closeTimeLimit s))) :
    settingsRecord (ofSettings s) = .ok (closeTimeLimit s) := by
  have hnames : Field.name ∘ slotField = Prod.fst := funext name_slotField
  have hnodup : (((Settings.slots (fun β => β) Float).map slotField).map Field.name).Nodup := by
    rw [List.map_map, hnames]
    exact Settings.nodup_slots
  have hstores := stores_slots hcounted hreals (fun _ h => h) (.default : Settings Float)
  rw [Settings.foldl_copy] at hstores
  exact record_of_stores hnodup hstores

theorem complete_ofSettings (hreals : Finite (reals (closeTimeLimit s))) :
    (ofSettings s).Complete := by
  refine complete_record (List.forall_mem_map.mpr fun slot hslot => ?_)
  have hreal (x : Float) (hx : real? (closeTimeLimit s) slot.2 = some x) :
      (Value.ofFloat x).Complete := complete_ofFloat (hreals x (mem_reals hslot hx))
  obtain ⟨name, kind⟩ := slot
  cases kind with
  | count get set => exact complete_ofNat _
  | seconds get set => exact hreal _ rfl
  | flag get set => trivial
  | scalar get set => exact hreal _ rfl

/-! ## The time limit -/

/-- Settings after they have been written and read: the largest finite time limit has become
infinite. -/
def reopened (s : Settings Float) : Settings Float :=
  { s with timeLimit :=
      if (s.timeLimit == 1.0 / 0.0 || s.timeLimit == largest) = true then 1.0 / 0.0
      else s.timeLimit }

theorem openTimeLimit_closeTimeLimit (s : Settings Float) :
    openTimeLimit (closeTimeLimit s) = reopened s := by
  have hlargest : (largest == largest) = true := by decide +kernel
  rw [reopened, closeTimeLimit]
  cases hinfinity : s.timeLimit == 1.0 / 0.0 with
  | true => simp [openTimeLimit, hlargest]
  | false => cases hmax : s.timeLimit == largest <;> simp [openTimeLimit, hmax]

/-- Admissible settings are written with finite values. -/
theorem finite_reals (h : s.validate = .ok ()) : Finite (reals (closeTimeLimit s)) := by
  obtain ⟨htime, hranges⟩ := Settings.validate_eq_ok_iff.mp h
  have hclosed : (closeTimeLimit s).timeLimit.isFinite = true := by
    rw [closeTimeLimit]
    split
    next =>
      show largest.isFinite = true
      decide +kernel
    next hinfinity => exact Settings.isFinite_of_admitsTimeLimit htime (by simpa using hinfinity)
  have hothers : Settings.ranges (closeTimeLimit s) = Settings.ranges s := by
    rw [closeTimeLimit]
    split <;> rfl
  have hcases : ∀ x ∈ reals (closeTimeLimit s), x = (closeTimeLimit s).timeLimit ∨
      ∃ r ∈ Settings.ranges (closeTimeLimit s), r.2.2 = x := by
    simp [reals, real?, Settings.slots, Settings.ranges]
  intro x hx
  rcases hcases x hx with rfl | ⟨r, hr, rfl⟩
  · exact hclosed
  · exact Settings.isFinite_of_admits (hranges r (hothers ▸ hr))

/-- Admissible settings stay admissible. -/
theorem validate_reopened (h : s.validate = .ok ()) : (reopened s).validate = .ok () := by
  obtain ⟨htime, hranges⟩ := Settings.validate_eq_ok_iff.mp h
  refine Settings.validate_eq_ok_iff.mpr ⟨?_, hranges⟩
  rw [reopened]
  split
  · show Settings.admitsTimeLimit (1.0 / 0.0) = true
    decide +kernel
  · exact htime

/-! ## A whole file -/

/-- What a file holds for a program and, if any, the settings beside it. -/
def content (p : Program Float) (settings : Option (Settings Float)) : Value :=
  Value.record [
    ("A", ofMatrix p.A),
    ("b", ofFloats p.b),
    ("c", ofFloats p.c),
    ("cones", .list (p.cones.map ofCone)),
    ("variables", ofMap p.map),
    ("settings", (settings.map ofSettings).getD .null)]

theorem write_eq (p : Program Float) (settings : Option (Settings Float)) :
    write p settings = (content p settings).write := rfl

/-- The vectors of a program can be held. -/
structure Held (p : Program Float) : Prop where
  b : p.b.size ≤ maxLength
  c : p.c.size ≤ maxLength
  values : p.A.values.size ≤ maxLength

/-- The indices of a valid program have 64 bits. -/
structure Indexed (p : Program Float) : Prop where
  nrows : p.A.nrows < 2 ^ 64
  ncols : p.A.ncols < 2 ^ 64
  colPtr : ∀ k ∈ p.A.colPtr, k < 2 ^ 64
  rowIdx : ∀ i ∈ p.A.rowIdx, i < 2 ^ 64
  cones : ∀ K ∈ p.cones, ∀ j ∈ K.indices, j < 2 ^ 64
  columns : ∀ j ∈ p.map.columns, j < 2 ^ 64
  ids : ∀ v ∈ p.map.ids, v.index < 2 ^ 64

theorem Held.indexed {p : Program Float} (h : Held p) (hp : p.validate = .ok ()) : Indexed p := by
  obtain ⟨⟨hmatrix, ⟨hb, hc, -⟩, hcovered, -⟩, hmap⟩ := WorkingCopy.validate_eq_ok_iff.mp hp
  have hroom : maxLength < 2 ^ 64 := by decide
  have hnrows : p.A.nrows < 2 ^ 64 := hb ▸ h.b.trans_lt hroom
  have hncols : p.A.ncols < 2 ^ 64 := hc ▸ h.c.trans_lt hroom
  refine { nrows := hnrows, ncols := hncols, colPtr := ?_, rowIdx := ?_, cones := ?_,
           columns := ?_, ids := ?_ }
  · intro k hk
    obtain ⟨j, hj, rfl⟩ := Array.mem_iff_getElem.mp hk
    have hj' : j ≤ p.A.ncols := by
      have := hmatrix.size_colPtr
      omega
    have hfirst : p.A.first j = p.A.colPtr[j] := by simp [Csc.first, hj]
    exact hfirst ▸ (hmatrix.first_le_nnz hj').trans_lt (h.values.trans_lt hroom)
  · exact fun i hi => (hmatrix.row_lt i (by simpa using hi)).trans hnrows
  · intro K hK j hj
    exact (List.mem_range.mp (hcovered.mem_iff.mp (List.mem_flatMap.mpr ⟨K, hK, hj⟩))).trans hncols
  · intro j hj
    obtain ⟨i, hi, rfl⟩ := Array.mem_iff_getElem.mp hj
    have hcolumn : p.map.column ⟨i⟩ = .ok p.map.columns[i] :=
      VariableMap.column_eq_ok.mpr (Array.getElem?_eq_getElem hi)
    exact (VariableMap.lt_of_column hmap hcolumn).2.trans hncols
  · intro v hv
    obtain ⟨j, hj, rfl⟩ := Array.mem_iff_getElem.mp hv
    have hcolumn : p.map.column p.map.ids[j] = .ok j :=
      (VariableMap.column_eq_ok_iff hmap).mpr (Array.getElem?_eq_getElem hj)
    exact (VariableMap.lt_of_column hmap hcolumn).1.trans hncols

/-- The settings of a file that is written can be written. -/
theorem optional_settings {settings : Option (Settings Float)}
    (hcounted : ∀ s ∈ settings, Counted s)
    (hreals : ∀ s ∈ settings, Finite (reals (closeTimeLimit s))) :
    optional settingsRecord ((settings.map ofSettings).getD .null) =
      .ok (settings.map closeTimeLimit) := by
  cases settings with
  | none => rfl
  | some s =>
    have hcounted : Counted (closeTimeLimit s) := by
      rw [closeTimeLimit]
      split <;> exact hcounted s rfl
    have hrecord := settingsRecord_ofSettings hcounted (hreals s rfl)
    rw [Option.map_some, Option.getD_some]
    show (settingsRecord (ofSettings s)).map some = _
    rw [hrecord]
    rfl

section

variable {p : Program Float} {settings : Option (Settings Float)} (hp : Indexed p)
  (hA : Finite p.A.values.toList) (hb : Finite p.b.toList) (hc : Finite p.c.toList)
  (hcounted : ∀ s ∈ settings, Counted s)
  (hreals : ∀ s ∈ settings, Finite (reals (closeTimeLimit s)))

include hA hb hc hreals

theorem complete_content : (content p settings).Complete := by
  have hcones : (Value.list (p.cones.map ofCone)).Complete :=
    complete_list (List.forall_mem_map.mpr fun K _ => complete_ofCone K)
  have hsettings : ((settings.map ofSettings).getD .null).Complete := by
    cases settings with
    | none => trivial
    | some s => exact complete_ofSettings (hreals s rfl)
  exact .cons (complete_ofMatrix hA) <| .cons (complete_ofFloats hb) <|
    .cons (complete_ofFloats hc) <| .cons hcones <| .cons (complete_ofMap p.map) <|
    .cons hsettings .nil

include hp hcounted

theorem decode_content : decode (content p settings) =
    .ok ⟨p.A, p.b, p.c, p.cones, p.map, settings.map closeTimeLimit⟩ := by
  have hcones : list cone (.list (p.cones.map ofCone)) = .ok p.cones :=
    list_map fun K hK => cone_ofCone (hp.cones K hK)
  have hA := matrix_ofMatrix hp.nrows hp.ncols hp.colPtr hp.rowIdx hA
  have hmap := variableMap_ofMap hp.columns hp.ids
  exact record_of_stores (by decide) <|
    .cons (store_of hA _) <|
    .cons (store_of (floats_ofFloats hb) _) <|
    .cons (store_of (floats_ofFloats hc) _) <|
    .cons (store_of hcones _) <|
    .cons (store_of hmap _) <|
    .cons (store_of (optional_settings hcounted hreals) _) <| .nil _

theorem ofText_write : ofText (write p settings) =
    .ok ⟨p.A, p.b, p.c, p.cones, p.map, settings.map closeTimeLimit⟩ := by
  rw [write_eq, ofText, read_write (complete_content hA hb hc hreals)]
  simp only [decode_content hp hA hb hc hcounted hreals]
  rfl

end

/-- A valid program that can be held is made again from its data. -/
theorem ofData_data {p : Program Float} (hp : p.validate = .ok ()) (hheld : Held p) :
    Program.ofData p.A p.b p.c p.cones p.map = .ok { p with
      x := Vec.zeros p.A.ncols
      w := Vec.zeros p.A.nrows
      s := Vec.zeros p.A.ncols } := by
  obtain ⟨hb, hc, hx, hw, hs⟩ := (WorkingCopy.validated_of_validate hp).sizes
  have hroom : ¬ (maxLength < p.A.ncols ∨ maxLength < p.A.nrows) := by
    have := hheld.b
    have := hheld.c
    omega
  rw [Program.ofData, if_neg hroom, Program.ofParts_eq_ok_iff, hb, hc]
  refine ⟨rfl, Eq.trans (Program.validate_congr rfl ?_) hp⟩
  exact ⟨(Vec.size_zeros _).trans hx.symm, (Vec.size_zeros _).trans hw.symm,
    (Vec.size_zeros _).trans hs.symm⟩

/-- A program with finite values that was constructed can be written with admissible settings
and is read back, whatever was done with it before: the parts of the program are the same, its
point is zero, and the settings are the same except that the largest finite time limit has become
infinite. -/
theorem read_of_write {p₀ p : Program Float} (h₀ : p₀.Constructed)
    (hsteps : Relation.ReflTransGen Program.Step p₀ p) (hheld : Held p)
    {settings : Option (Settings Float)}
    (hfinite : Finite (p.A.values.toList ++ p.b.toList ++ p.c.toList))
    (hsettings : ∀ s ∈ settings, s.validate = .ok () ∧ Counted s) :
    read (write p settings).toUTF8 = .ok ({ p with
      x := Vec.zeros p.A.ncols
      w := Vec.zeros p.A.nrows
      s := Vec.zeros p.A.ncols }, settings.map reopened) := by
  have hp : p.validate = .ok () := h₀.validate_of_steps hsteps
  simp only [Finite, List.forall_mem_append] at hfinite
  obtain ⟨⟨hA, hb⟩, hc⟩ := hfinite
  have htext := ofText_write (hheld.indexed hp) hA hb hc (fun s hs => (hsettings s hs).2)
    fun s hs => finite_reals (hsettings s hs).1
  have hopen : openTimeLimit ∘ closeTimeLimit = reopened := funext openTimeLimit_closeTimeLimit
  refine read_eq_ok_iff.mpr ⟨_, _, fromUTF8?_toUTF8 _, htext, ?_, fun s hs => ?_,
    ofData_data hp hheld⟩
  · rw [Option.map_map, hopen]
  · obtain ⟨s', hs', rfl⟩ := Option.mem_map.mp hs
    exact validate_reopened (hsettings s' hs').1

/-- A program over one second-order cone. -/
def cup : Program Float where
  A := ⟨1, 2, #[0, 1, 2], #[0, 0], #[1, 0.5]⟩
  b := #[1]
  c := #[0.1, -3e20]
  x := Vec.zeros 2
  w := Vec.zeros 1
  s := Vec.zeros 2
  cones := [.secondOrder 0 [1]]
  map := .identity 2

/-- That program can be written with the default settings and is read back. -/
theorem read_of_write_cup :
    (cup.Constructed ∧ Held cup ∧ Finite (cup.A.values.toList ++ cup.b.toList ++ cup.c.toList) ∧
      ∀ s ∈ some (Settings.default : Settings Float), s.validate = .ok () ∧ Counted s) ∧
    read (write cup (some .default)).toUTF8 = .ok (cup, some (reopened .default)) := by
  have hvalid : cup.validate = .ok () := by decide +kernel
  have hnew : Program.new cup.A cup.b cup.c cup.cones = .ok cup := by
    rw [Program.new, Program.ofData, if_neg (by simp [cup, maxLength])]
    exact Program.ofParts_eq_ok_iff.mpr ⟨rfl, hvalid⟩
  have hheld : Held cup := ⟨by decide, by decide, by decide⟩
  have hfinite : Finite (cup.A.values.toList ++ cup.b.toList ++ cup.c.toList) := by
    unfold Finite
    decide +kernel
  have hsettings : ∀ s ∈ some (Settings.default : Settings Float),
      s.validate = .ok () ∧ Counted s := by
    intro s hs
    obtain rfl := Option.some.inj hs
    exact ⟨by decide +kernel, by decide, by decide⟩
  exact ⟨⟨.new hnew, hheld, hfinite, hsettings⟩,
    read_of_write (.new hnew) .refl hheld hfinite hsettings⟩

end ProgramFile

end Conic
