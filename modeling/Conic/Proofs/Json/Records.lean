import Conic.Json.Decoder
import Conic.Json.Writer
import Conic.Proofs.Json.Floats
import Conic.Proofs.Loops

/-!
# Taking written records apart

A record that is written holds all its fields in their order.  Such a record is taken
apart field by field (`Decoder.Stores`), and neither the search for a field by its name nor
the test for missing fields can fail (`Decoder.record_of_stores`).

The other lemmas say the same of the simple values: each decoder takes the value apart that
is written for what it decodes.
-/

namespace Conic.Json.Decoder

variable {β σ : Type}

/-! ## Records -/

/-- Storing named values one after the other, each in the field of its name. -/
inductive Stores : List (Field σ) → σ → List (String × Value) → σ → Prop
  /-- There is nothing left to store. -/
  | nil (s : σ) : Stores [] s [] s
  /-- The first value is stored in the first field. -/
  | cons {f : Field σ} {fields : List (Field σ)} {s s' s'' : σ} {v : Value}
    {ms : List (String × Value)} : f.store v s = .ok s' → Stores fields s' ms s'' →
    Stores (f :: fields) s ((f.name, v) :: ms) s''

/-- A field is found by its name. -/
theorem find?_name {fields : List (Field σ)} (hnodup : (fields.map Field.name).Nodup)
    {f : Field σ} (hf : f ∈ fields) : fields.find? (fun g => g.name == f.name) = some f := by
  obtain ⟨g, hg⟩ : ∃ g, fields.find? (fun g => g.name == f.name) = some g :=
    Option.isSome_iff_exists.mp (List.find?_isSome.mpr ⟨f, hf, beq_self_eq_true _⟩)
  have hname : g.name = f.name := by simpa using List.find?_some hg
  rw [hg, List.inj_on_of_nodup_map hnodup (List.mem_of_find?_eq_some hg) hf hname]

/-- Members are stored in the fields of their names. -/
theorem members_of_stores {all fields : List (Field σ)} {s s' : σ} {ms : List (String × Value)}
    (h : Stores fields s ms s') (hall : (all.map Field.name).Nodup) (seen : List String)
    (hfields : ∀ f ∈ fields, f ∈ all) (hnodup : (fields.map Field.name).Nodup)
    (hseen : ∀ f ∈ fields, f.name ∉ seen) :
    members all seen s (ms.map fun m => (some m.1, m.2)) =
      .ok ((fields.map Field.name).reverse ++ seen, s') := by
  induction h generalizing seen with
  | nil s => rfl
  | @cons f fields s s' s'' v ms hstore _ ih =>
    obtain ⟨hname, hnodup⟩ := List.nodup_cons.mp hnodup
    have hnew : seen.contains f.name = false := by simpa using hseen f List.mem_cons_self
    rw [List.map_cons, members, find?_name hall (hfields f List.mem_cons_self)]
    simp only [hnew, Bool.false_eq_true, if_false, hstore]
    refine (ih _ (fun g hg => hfields g (List.mem_cons_of_mem _ hg)) hnodup
      fun g hg => ?_).trans (by simp)
    rw [List.mem_cons, not_or]
    refine ⟨fun heq => hname (heq ▸ List.mem_map_of_mem hg), hseen g (List.mem_cons_of_mem _ hg)⟩

/-- A record whose members are all fields in their order is taken apart. -/
theorem record_of_stores {fields : List (Field σ)} {start s : σ} {ms : List (String × Value)}
    (hnodup : (fields.map Field.name).Nodup) (h : Stores fields start ms s) :
    record fields start (Value.record ms) = .ok s := by
  have hmembers := members_of_stores h hnodup [] (fun _ hf => hf) hnodup (by simp)
  rw [Value.record, record, hmembers, List.append_nil]
  have hfound : (fields.all fun f =>
      f.optional || (fields.map Field.name).reverse.contains f.name) = true := by
    rw [List.all_eq_true]
    intro f hf
    have hmem : (fields.map Field.name).reverse.contains f.name = true := by
      simpa using ⟨f, hf, rfl⟩
    rw [hmem, Bool.or_true]
  show (if (fields.all fun f =>
    f.optional || (fields.map Field.name).reverse.contains f.name) = true then _ else _) = _
  rw [if_pos hfound]
  rfl

theorem store_of {name : String} {d : Decoder β} {set : β → σ → σ} {mayMiss : Bool} {v : Value}
    {b : β} (h : d v = .ok b) (s : σ) :
    (Field.of name d set mayMiss).store v s = .ok (set b s) := by
  simp only [Field.of, h]
  rfl

/-- A case is taken apart by the decoder of its name. -/
theorem oneOf_record {cases : List (String × Decoder β)} {name : String} {d : Decoder β}
    (hcase : cases.find? (fun c => some c.1 == some name) = some (name, d)) {v : Value} {b : β}
    (h : d v = .ok b) : oneOf cases (.record [(name, v)]) = .ok b := by
  simp only [Value.record, List.map_cons, List.map_nil, oneOf, hcase, h]
  rfl

/-! ## Simple values -/

theorem natural_ofNat {bound n : ℕ} (h : n ≤ bound) : natural bound (.ofNat n) = .ok n := by
  rw [Value.ofNat, natural, Number.natural?_toDigits h]
  rfl

/-- A finite value is taken apart. -/
theorem float_ofFloat {x : Float} (hx : x.isFinite = true) : float (.ofFloat x) = .ok x := by
  rw [Value.ofFloat, if_pos hx, float, Decimal.float?_text hx]
  rfl

/-- A list is taken apart item by item. -/
theorem list_map {d : Decoder β} {write : β → Value} {l : List β}
    (h : ∀ b ∈ l, d (write b) = .ok b) : list d (.list (l.map write)) = .ok l := by
  have hitems : (l.map write).mapM d = .ok l := by
    rw [Loop.mapM_eq_ok_iff, List.map_map]
    exact List.map_congr_left h
  rw [Value.list, list, hitems]
  rfl

end Conic.Json.Decoder
