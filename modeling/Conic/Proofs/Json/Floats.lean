import Conic.Decimal.Layout
import Conic.Proofs.Decimal.Scientific
import Conic.Proofs.Json.Numerals

/-!
# Finite values are written and read

A decimal is written as a proper literal (`Layout.chars_literal`, `Layout.proper_literal`) that
has the value of the decimal, wherever the layout puts the point (`Layout.value_literal`).  The
text of a finite value is the literal of its shortest digits.

These digits round to the value, so their literal is read as the value.  `float?_text` says this
of every finite value, both zeros included.
-/

namespace Conic

/-- The value of a literal without its sign. -/
def Json.Number.Literal.value (L : Literal) : ℚ :=
  ofDigits (L.whole ++ L.fracDigits) * 10 ^ (L.shift - L.fracDigits.length)

namespace Decimal

open Json.Number

namespace Layout

/-- The literal of a decimal. -/
def literal (l : Layout) (negative : Bool) (d : Digits) : Literal :=
  let ds := digitChars d.digits
  let e : ℤ := d.exponent + (ds.length - 1 : ℕ)
  if l.plainFrom ≤ e ∧ e ≤ l.plainTo then
    if e < 0 then ⟨negative, ['0'], some (zeros (-e - 1).toNat ++ ds), none⟩
    else if ds.length ≤ e.toNat + 1 then
      ⟨negative, ds ++ zeros (e.toNat + 1 - ds.length), some ['0'], none⟩
    else ⟨negative, ds.take (e.toNat + 1), some (ds.drop (e.toNat + 1)), none⟩
  else ⟨negative, ds.take 1, if ds.length ≤ 1 then none else some (ds.drop 1),
    some (decide (e < 0), digitChars e.natAbs)⟩

variable {l : Layout} {d : Digits}

theorem negative_literal (negative : Bool) : (l.literal negative d).negative = negative := by
  rw [literal]
  split
  · split
    · rfl
    · split <;> rfl
  · rfl

/-- A decimal is written as its literal, if exponents have a sign. -/
theorem chars_literal (hl : l.signedExponent = true) (negative : Bool) :
    (l.literal negative d).chars = (if negative then ['-'] else []) ++ l.write d := by
  have hne : digitChars d.digits ≠ [] := Nat.toDigits_ne_nil
  have hexponent (e : ℤ) : 'e' :: exponentChars true e =
      'e' :: (if decide (e < 0) then '-' else '+') :: digitChars e.natAbs := by
    rw [exponentChars]
    by_cases he : e < 0 <;> simp [he]
  rw [literal, write]
  split
  · split
    · simp [Literal.chars, Literal.signChars, Literal.fracChars, Literal.expChars]
    · rw [pointAfter]
      split <;> simp [Literal.chars, Literal.signChars, Literal.fracChars, Literal.expChars]
  · obtain ⟨c, ds, hds⟩ := List.exists_cons_of_ne_nil hne
    rw [hds, hl]
    cases ds with
    | nil => simp [Literal.chars, Literal.signChars, Literal.fracChars, Literal.expChars, hexponent]
    | cons c' ds =>
      simp [Literal.chars, Literal.signChars, Literal.fracChars, Literal.expChars, hexponent]

theorem isDigit_of_mem_zeros {n : ℕ} : ∀ c ∈ zeros n, c.isDigit = true := by
  intro c hc
  rw [(List.mem_replicate.mp hc).2]
  decide

/-- The literal of a decimal is proper, if zero has no positive exponent. -/
theorem proper_literal (hzero : d.digits = 0 → d.exponent ≤ 0) (negative : Bool) :
    (l.literal negative d).Proper := by
  have hwhole : IsWhole (digitChars d.digits) := isWhole_toDigits d.digits
  have hlength : 0 < (digitChars d.digits).length := List.length_pos_iff.mpr hwhole.ne_nil
  rw [literal]
  split
  · split
    · refine ⟨isWhole_toDigits 0, fun ds hds => ?_, nofun⟩
      obtain rfl := Option.some.inj hds
      exact ⟨List.append_ne_nil_of_right_ne_nil _ hwhole.ne_nil, fun c hc =>
        (List.mem_append.mp hc).elim (isDigit_of_mem_zeros c) (hwhole.isDigit c)⟩
    · split
      next hneg hle =>
        refine ⟨⟨hwhole.toIsDigits.append isDigit_of_mem_zeros, fun hlead => ?_⟩, fun ds hds => ?_,
          nofun⟩
        · rw [List.head?_append, List.head?_eq_some_head hwhole.ne_nil, Option.some_or,
            ← List.head?_eq_some_head hwhole.ne_nil] at hlead
          have hdigits : d.digits = 0 := leading_toDigits _ hlead
          have hexponent := hzero hdigits
          have hone : (digitChars d.digits).length = 1 := by rw [hdigits]; rfl
          have hnone : (d.exponent + ((digitChars d.digits).length - 1 : ℕ)).toNat + 1 -
              (digitChars d.digits).length = 0 := by omega
          rw [hnone, hwhole.leading hlead]
          rfl
        · obtain rfl := Option.some.inj hds
          exact isDigits_toDigits 0
      next hneg hlt =>
        refine ⟨hwhole.take _, fun ds hds => ?_, nofun⟩
        obtain rfl := Option.some.inj hds
        exact hwhole.toIsDigits.drop (by omega)
  · refine ⟨hwhole.take 0, fun ds hds => ?_, fun e he => ?_⟩
    · split at hds
      · cases hds
      · obtain rfl := Option.some.inj hds
        exact hwhole.toIsDigits.drop (by omega)
    · obtain rfl := Option.some.inj he
      exact isDigits_toDigits _

end Layout

/-! ## Values -/

theorem ofDigits_append_zeros (ds : List Char) (n : ℕ) :
    ofDigits (ds ++ zeros n) = ofDigits ds * 10 ^ n := by
  induction n with
  | zero => simp [zeros]
  | succ n ih =>
    have hlast : ds ++ zeros (n + 1) = (ds ++ zeros n) ++ ['0'] := by
      rw [zeros, zeros, List.replicate_succ', List.append_assoc]
    rw [hlast, ofDigits, List.foldl_append, ← ofDigits, ih, pow_succ, ← mul_assoc]
    exact Nat.mul_comm 10 _

theorem ofDigits_zeros_append (n : ℕ) (ds : List Char) :
    ofDigits (zeros n ++ ds) = ofDigits ds := by
  have hzero := ofDigits_append_zeros [] n
  rw [List.nil_append] at hzero
  rw [ofDigits, List.foldl_append, ← ofDigits, hzero]
  simp [ofDigits]

/-- The literal of a decimal has its value. -/
theorem Layout.value_literal (l : Layout) (negative : Bool) (d : Digits) :
    (l.literal negative d).value = d.value := by
  have hlength : 0 < (digitChars d.digits).length :=
    List.length_pos_iff.mpr (isDigits_toDigits d.digits).ne_nil
  have hdigits : ofDigits (digitChars d.digits) = d.digits := ofDigits_toDigits d.digits
  have hparts {m : ℕ} {t : ℤ} (hm : m = d.digits) (ht : t = d.exponent) :
      (m * 10 ^ t : ℚ) = d.value := by rw [hm, ht, Digits.value]
  rw [Literal.value, Layout.literal]
  generalize digitChars d.digits = ds at hlength hdigits ⊢
  split
  · split
    next hneg =>
      refine hparts ?_ ?_
      · exact (ofDigits_zeros_append (_ + 1) ds).trans hdigits
      · simp [Literal.shift, Literal.fracDigits, zeros]
        omega
    next hneg =>
      split
      next hle =>
        obtain ⟨n, hn⟩ := Int.eq_ofNat_of_zero_le (a := d.exponent) (by omega)
        have hfilled : (d.exponent + (ds.length - 1 : ℕ)).toNat + 1 - ds.length = n := by omega
        have hzero := ofDigits_append_zeros (ds ++ zeros n) 1
        rw [ofDigits_append_zeros ds, hdigits] at hzero
        simp only [Literal.fracDigits, Literal.shift, Option.getD_some, Option.elim_none, hfilled]
        rw [show ['0'] = zeros 1 from rfl, hzero, Digits.value, hn, zpow_natCast]
        simp [zeros, zpow_neg]
      next hlt =>
        refine hparts ?_ ?_
        · simpa [Literal.fracDigits] using hdigits
        · simp [Literal.shift, Literal.fracDigits]
          omega
  · have hfrac : (if ds.length ≤ 1 then none else some (ds.drop 1)).getD [] = ds.drop 1 := by
      split
      next hle => exact (List.drop_eq_nil_of_le hle).symm
      next => rfl
    have hexponent := ofDigits_toDigits (d.exponent + (ds.length - 1 : ℕ)).natAbs
    simp only [Literal.shift, Literal.fracDigits, Option.elim_some, hfrac]
    rw [digitChars, hexponent, List.take_append_drop, List.length_drop]
    refine hparts hdigits ?_
    split
    next he =>
      rw [decide_eq_true_eq] at he
      omega
    next he =>
      rw [decide_eq_true_eq] at he
      omega

/-- The literal of a finite value. -/
def dataLiteral (x : Float) : Literal :=
  Layout.data.literal (isNegative x) (Digits.shortest Layout.data.tie (.ofFloat x))

theorem proper_dataLiteral (x : Float) : (dataLiteral x).Proper := by
  refine Layout.proper_literal (fun hzero => ?_) _
  rcases Nat.eq_zero_or_pos (Dyadic.ofFloat x).m with hx | hx
  · rw [Digits.shortest, if_pos hx]
  · exact absurd hzero (Digits.shortest_pos _ hx).ne'

/-- A finite value is written as its literal. -/
theorem toList_text {x : Float} (hx : x.isFinite = true) :
    (Layout.data.text x).toList = (dataLiteral x).chars := by
  have hnan : x.isNaN = false := by
    simp only [Float.isNaN, Float.Model.isNaN, Float.isFinite, Float.Model.isFinite] at hx ⊢
    cases hunpack : x.toModel.unpack with
    | notANumber => rw [hunpack] at hx; cases hx
    | _ => rfl
  rw [dataLiteral, Layout.chars_literal rfl, Layout.text, signed, hnan, hx]
  simp

/-! ## Reading back -/

/-- A decimal that rounds to a magnitude is neither too large nor too small to be read. -/
theorem nearest?_eq {x : Dyadic} (hx : x.Canonical) (hpos : 0 < x.m) {m : ℕ} (hm : 0 < m) {e : ℤ}
    (hy : x.Attracts (m * 10 ^ e)) : nearest? m e =
      some (.ofModel (.pack (.finite .positive x.m x.q hpos))) := by
  have hlength : 0 < (Nat.toDigits 10 m).length := List.length_pos_iff.mpr Nat.toDigits_ne_nil
  have hlower : -400 < e + (Nat.toDigits 10 m).length :=
    hy.exponent_gt hx hpos ((Nat.length_toDigits_le_iff (by decide) hlength).mp le_rfl)
  have hupper : e + ((Nat.toDigits 10 m).length - 1 : ℕ) < 400 := by
    refine hy.exponent_lt hx (not_lt.mp fun hlt => ?_)
    rcases Nat.eq_zero_or_pos ((Nat.toDigits 10 m).length - 1) with hone | hmore
    · rw [hone] at hlt
      omega
    · have hle := (Nat.length_toDigits_le_iff (by decide) hmore).mpr hlt
      omega
  have hfinite : (Float.ofModel (.pack (.finite .positive x.m x.q hpos))).isFinite = true := by
    show (Float.Model.pack _).unpack.isFinite = true
    rw [unpack_pack hx hpos]
    rfl
  rw [nearest?]
  simp only
  rw [if_neg (by omega), if_neg (by omega), ofScientific_eq hx hpos hm hy, if_pos hfinite]

/-- The text of a finite value is read as this value. -/
theorem float?_text {x : Float} (hx : x.isFinite = true) :
    float? (Layout.data.text x).toList = some x := by
  have hvalue := Layout.value_literal Layout.data (isNegative x)
    (Digits.shortest Layout.data.tie (.ofFloat x))
  rw [Literal.value, ← dataLiteral] at hvalue
  rw [toList_text hx, float?, Literal.parts_chars (proper_dataLiteral x)]
  simp only
  rw [dataLiteral, Layout.negative_literal, ← dataLiteral]
  generalize ofDigits _ = m at hvalue ⊢
  generalize Literal.shift _ - _ = e at hvalue ⊢
  rcases Nat.eq_zero_or_pos (Dyadic.ofFloat x).m with hzero | hpos
  · rw [Digits.shortest, if_pos hzero, Digits.value, Nat.cast_zero, zero_mul] at hvalue
    have hm : m = 0 := by
      have hpower : (10 : ℚ) ^ e ≠ 0 := by positivity
      exact_mod_cast (mul_eq_zero.mp hvalue).resolve_right hpower
    rw [nearest?]
    simp only [hm, true_or, if_true, Option.map_some]
    exact congrArg some (eq_zero_of_ofFloat hzero).symm
  · have hattracts : (Dyadic.ofFloat x).Attracts (m * 10 ^ e) :=
      hvalue ▸ Digits.attracts_shortest Layout.data.tie hpos
    have hm : 0 < m := by
      have hleast := (Dyadic.least_pos hpos).trans_le hattracts.least_le
      refine Nat.pos_of_ne_zero fun hm => ?_
      rw [hm, Nat.cast_zero, zero_mul] at hleast
      exact hleast.false
    rw [nearest?_eq (canonical_ofFloat hx) hpos hm hattracts, Option.map_some]
    exact congrArg some (eq_of_ofFloat hx hpos).symm

end Decimal

end Conic
