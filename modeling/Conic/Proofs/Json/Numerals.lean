import Conic.Json.Number
import Mathlib.Data.Nat.Digits.Defs

/-!
# The numbers that are written

A number is written as digits, a fraction and an exponent, where the last two may be
missing.  `Literal` holds these parts, and `Literal.Proper` says what the grammar asks
of them.  `scan` takes a proper literal off a text, provided that no character follows
that could go on with it (`Literal.scan_append`).

The value of a literal is computed from its parts (`Literal.parts_chars`).  Counts are
proper literals and have their own value (`natural?_toDigits`).
-/

namespace Conic

namespace Json.Number

/-! ## Digits -/

/-- No digit follows. -/
def DigitsEnd (rest : List Char) : Prop := ∀ c ∈ rest.head?, c.isDigit = false

/-- Nothing follows that could go on with a number. -/
structure NumberEnds (rest : List Char) : Prop where
  /-- No digit. -/
  digits : DigitsEnd rest
  /-- No fraction and no exponent. -/
  parts : ∀ c ∈ rest.head?, c ≠ '.' ∧ c ≠ 'e' ∧ c ≠ 'E'

/-- At least one digit, and nothing else. -/
structure IsDigits (ds : List Char) : Prop where
  /-- There is one. -/
  ne_nil : ds ≠ []
  /-- All are digits. -/
  isDigit : ∀ c ∈ ds, c.isDigit = true

/-- Digits before the point: a zero stands alone. -/
structure IsWhole (ds : List Char) : Prop extends IsDigits ds where
  /-- The first digit is no zero, unless it is the only one. -/
  leading : ds.head? = some '0' → ds = ['0']

variable {ds rest : List Char}

theorem IsDigits.append (h : IsDigits ds) {ds' : List Char} (h' : ∀ c ∈ ds', c.isDigit = true) :
    IsDigits (ds ++ ds') where
  ne_nil := List.append_ne_nil_of_left_ne_nil h.ne_nil _
  isDigit c hc := (List.mem_append.mp hc).elim (h.isDigit c) (h' c)

theorem IsDigits.drop (h : IsDigits ds) {k : ℕ} (hk : k < ds.length) : IsDigits (ds.drop k) where
  ne_nil hnil := by
    have hlength := List.drop_eq_nil_iff.mp hnil
    omega
  isDigit c hc := h.isDigit c (List.mem_of_mem_drop hc)

theorem IsWhole.take (h : IsWhole ds) (k : ℕ) : IsWhole (ds.take (k + 1)) where
  ne_nil := by simp [h.ne_nil]
  isDigit c hc := h.isDigit c (List.mem_of_mem_take hc)
  leading hzero := by
    rw [List.head?_take, if_neg k.succ_ne_zero] at hzero
    rw [h.leading hzero, List.take_succ_cons, List.take_nil]

theorem takeWhile_digits (hds : ∀ c ∈ ds, c.isDigit = true) (hrest : DigitsEnd rest) :
    (ds ++ rest).takeWhile Char.isDigit = ds := by
  rw [List.takeWhile_append_of_pos hds]
  cases rest with
  | nil => simp
  | cons c rest => simp [hrest c rfl]

theorem dropWhile_digits (hds : ∀ c ∈ ds, c.isDigit = true) (hrest : DigitsEnd rest) :
    (ds ++ rest).dropWhile Char.isDigit = rest := by
  rw [List.dropWhile_append_of_pos hds]
  cases rest with
  | nil => rfl
  | cons c rest => simp [hrest c rfl]

theorem digits_append (read : List Char) (hds : IsDigits ds) (hrest : DigitsEnd rest) :
    digits read (ds ++ rest) = .complete (read ++ ds) rest := by
  simp [digits, takeWhile_digits hds.isDigit hrest, dropWhile_digits hds.isDigit hrest, hds.ne_nil]

theorem integral_append (read : List Char) (hds : IsWhole ds) (hrest : DigitsEnd rest) :
    integral read (ds ++ rest) = .complete (read ++ ds) rest := by
  cases ds with
  | nil => exact absurd rfl hds.ne_nil
  | cons d ds =>
    by_cases hd : d = '0'
    · subst hd
      obtain rfl : ds = [] := (List.cons.inj (hds.leading rfl)).2
      cases rest with
      | nil => rfl
      | cons c rest => simp [integral, hrest c rfl]
    · have hintegral : integral read (d :: ds ++ rest) = digits read (d :: ds ++ rest) := by
        rw [integral.eq_def]
        split
        next heq => exact absurd (List.cons.inj heq).1 hd
        next => rfl
      rw [hintegral, digits_append read hds.toIsDigits hrest]

/-! ## Literals -/

/-- A number in the parts that are written. -/
structure Literal where
  /-- It has a minus sign. -/
  negative : Bool
  /-- The digits before the point. -/
  whole : List Char
  /-- The digits behind the point. -/
  frac : Option (List Char)
  /-- The sign and the digits of the exponent. -/
  exp : Option (Bool × List Char)

namespace Literal

/-- The sign. -/
def signChars (L : Literal) : List Char := if L.negative then ['-'] else []

/-- The point and the digits behind it. -/
def fracChars (L : Literal) : List Char := L.frac.elim [] ('.' :: ·)

/-- The exponent with its sign. -/
def expChars (L : Literal) : List Char :=
  L.exp.elim [] fun e => 'e' :: (if e.1 then '-' else '+') :: e.2

/-- The characters of a literal. -/
def chars (L : Literal) : List Char := L.signChars ++ L.whole ++ L.fracChars ++ L.expChars

/-- What the grammar asks of a literal. -/
structure Proper (L : Literal) : Prop where
  whole : IsWhole L.whole
  frac : ∀ ds ∈ L.frac, IsDigits ds
  exp : ∀ e ∈ L.exp, IsDigits e.2

variable {L : Literal} {rest : List Char}

/-- The exponent ends the digits before it. -/
theorem digitsEnd_expChars (hrest : NumberEnds rest) : DigitsEnd (L.expChars ++ rest) := by
  rw [expChars]
  cases L.exp with
  | none => exact hrest.digits
  | some e =>
    intro c hc
    cases hc
    decide

/-- The point ends the digits before it. -/
theorem digitsEnd_fracChars (hrest : NumberEnds rest) :
    DigitsEnd (L.fracChars ++ (L.expChars ++ rest)) := by
  rw [fracChars]
  cases L.frac with
  | none => exact digitsEnd_expChars hrest
  | some ds =>
    intro c hc
    cases hc
    decide

theorem exponent_append (read : List Char) (hL : L.Proper) (hrest : NumberEnds rest) :
    exponent read (L.expChars ++ rest) = .complete (read ++ L.expChars) rest := by
  rw [expChars]
  cases hexp : L.exp with
  | none =>
    rw [Option.elim_none, List.nil_append, List.append_nil]
    cases rest with
    | nil => rfl
    | cons c rest =>
      obtain ⟨-, he, hE⟩ := hrest.parts c rfl
      simp [exponent, he, hE]
  | some e =>
    obtain ⟨sign, ds⟩ := e
    have hds : IsDigits ds := hL.exp _ hexp
    have hsign : (if sign then '-' else '+') = '+' ∨ (if sign then '-' else '+') = '-' := by
      cases sign <;> simp
    simp only [Option.elim_some, List.cons_append, exponent, true_or, if_true, if_pos hsign]
    rw [digits_append _ hds hrest.digits, List.append_assoc]
    rfl

theorem fraction_append (read : List Char) (hL : L.Proper) (hrest : NumberEnds rest) :
    fraction read (L.fracChars ++ (L.expChars ++ rest)) =
      .complete (read ++ L.fracChars) (L.expChars ++ rest) := by
  rw [fracChars]
  cases hfrac : L.frac with
  | none =>
    have hpoint : ∀ c ∈ (L.expChars ++ rest).head?, c ≠ '.' := by
      rw [expChars]
      cases L.exp with
      | none => exact fun c hc => (hrest.parts c hc).1
      | some e =>
        intro c hc
        cases hc
        decide
    rw [Option.elim_none, List.nil_append, List.append_nil, fraction.eq_def]
    split
    next heq =>
      rw [heq] at hpoint
      exact absurd rfl (hpoint _ rfl)
    next => rfl
  | some ds =>
    simp only [Option.elim_some, List.cons_append, fraction]
    rw [digits_append _ (hL.frac ds hfrac) (digitsEnd_expChars hrest), List.append_assoc]
    rfl

/-- A number that begins with a digit has no sign. -/
theorem scan_of_isDigit {d : Char} (hd : d.isDigit = true) (cs : List Char) :
    scan (d :: cs) = ((integral [] (d :: cs)).andThen fraction).andThen exponent := by
  have hne : d ≠ '-' := by
    rintro rfl
    cases hd
  simp only [scan]
  split
  next heq => exact absurd (List.cons.inj heq).1 hne
  next => rfl

/-- A literal is taken off a text. -/
theorem scan_append (hL : L.Proper) (hrest : NumberEnds rest) :
    scan (L.chars ++ rest) = .complete L.chars rest := by
  have hstart (read : List Char) : ((integral read (L.whole ++ (L.fracChars ++
      (L.expChars ++ rest)))).andThen fraction).andThen exponent =
        .complete (read ++ L.whole ++ L.fracChars ++ L.expChars) rest := by
    rw [integral_append read hL.whole (digitsEnd_fracChars hrest), Scan.andThen,
      fraction_append _ hL hrest, Scan.andThen, exponent_append _ hL hrest]
  simp only [chars, signChars, List.append_assoc] at hstart ⊢
  cases L.negative with
  | true => exact hstart ['-']
  | false =>
    obtain ⟨d, ds, hwhole⟩ := List.exists_cons_of_ne_nil hL.whole.ne_nil
    have hd : d.isDigit = true := hL.whole.isDigit d (hwhole ▸ List.mem_cons_self)
    have hunsigned := hstart []
    rw [hwhole] at hunsigned ⊢
    exact (scan_of_isDigit hd _).trans hunsigned

/-- A literal begins with its sign or with a digit. -/
theorem exists_chars_eq_cons (hL : L.Proper) :
    ∃ c cs, L.chars = c :: cs ∧ (c = '-' ∨ c.isDigit = true) := by
  obtain ⟨d, ds, hwhole⟩ := List.exists_cons_of_ne_nil hL.whole.ne_nil
  have hd : d.isDigit = true := hL.whole.isDigit d (hwhole ▸ List.mem_cons_self)
  rw [chars, signChars, hwhole]
  cases L.negative with
  | true => exact ⟨_, _, rfl, .inl rfl⟩
  | false => exact ⟨_, _, rfl, .inr hd⟩

/-! ## Values -/

/-- The digits behind the point, if there are any. -/
def fracDigits (L : Literal) : List Char := L.frac.getD []

/-- The exponent. -/
def shift (L : Literal) : ℤ :=
  L.exp.elim 0 fun e => if e.1 then -(ofDigits e.2 : ℤ) else ofDigits e.2

theorem head?_chars (hL : L.Proper) : (L.chars.head? == some '-') = L.negative := by
  obtain ⟨d, ds, hwhole⟩ := List.exists_cons_of_ne_nil hL.whole.ne_nil
  have hd : d.isDigit = true := hL.whole.isDigit d (hwhole ▸ List.mem_cons_self)
  rw [chars, signChars, hwhole]
  cases L.negative with
  | true => rfl
  | false =>
    have hne : d ≠ '-' := by
      rintro rfl
      cases hd
    simpa using hne

/-- No digit and no point marks an exponent. -/
theorem dropWhile_mark (hL : L.Proper) :
    (L.fracChars ++ L.expChars).dropWhile (fun c => c != 'e' && c != 'E') = L.expChars := by
  have hunmarked : ∀ c ∈ L.fracChars, (c != 'e' && c != 'E') = true := by
    rw [fracChars]
    cases hfrac : L.frac with
    | none => simp
    | some ds =>
      intro c hc
      rcases List.mem_cons.mp hc with rfl | hc
      · decide
      · have hd := (hL.frac ds hfrac).isDigit c hc
        simp only [Bool.and_eq_true, bne_iff_ne]
        constructor <;> rintro rfl <;> cases hd
  rw [List.dropWhile_append_of_pos hunmarked, expChars]
  cases L.exp <;> simp

/-- The parts of a literal are read off its characters. -/
theorem parts_chars (hL : L.Proper) : Number.parts L.chars = ⟨L.negative,
    ofDigits (L.whole ++ L.fracDigits), L.shift - L.fracDigits.length,
    (L.fracChars ++ L.expChars).isEmpty⟩ := by
  have hends : NumberEnds [] := ⟨nofun, nofun⟩
  have hbody : (if L.negative = true then L.chars.drop 1 else L.chars) =
      L.whole ++ (L.fracChars ++ L.expChars) := by
    rw [chars, signChars]
    cases L.negative <;> simp
  have hpoint : DigitsEnd (L.fracChars ++ L.expChars) := by
    simpa using digitsEnd_fracChars (L := L) hends
  have hwhole := takeWhile_digits hL.whole.isDigit hpoint
  have hbehind := dropWhile_digits hL.whole.isDigit hpoint
  have hexp : DigitsEnd L.expChars := by simpa using digitsEnd_expChars (L := L) hends
  simp only [Number.parts, head?_chars hL, hbody, hwhole, hbehind, dropWhile_mark hL]
  rw [fracChars, fracDigits, shift]
  cases hfrac : L.frac with
  | none =>
    rw [expChars]
    cases L.exp with
    | none => simp
    | some e => obtain ⟨_ | _, ds⟩ := e <;> simp
  | some fs =>
    have hdigits := takeWhile_digits (hL.frac fs hfrac).isDigit hexp
    rw [expChars] at hdigits ⊢
    cases hexponent : L.exp with
    | none =>
      rw [hexponent, Option.elim_none, List.append_nil] at hdigits
      simp [hdigits]
    | some e =>
      rw [hexponent, Option.elim_some] at hdigits
      obtain ⟨_ | _, ds⟩ := e
      all_goals
        simp only [Bool.false_eq_true, if_false, if_true] at hdigits
        simp [hdigits]

end Literal

/-! ## Counts -/

theorem isDigits_toDigits (n : ℕ) : IsDigits (Nat.toDigits 10 n) where
  ne_nil := Nat.toDigits_ne_nil
  isDigit _ hc := Nat.isDigit_of_mem_toDigits (by decide) le_rfl hc

/-- Only zero is written with a leading zero. -/
theorem leading_toDigits (n : ℕ) (h : (Nat.toDigits 10 n).head? = some '0') : n = 0 := by
  induction n using Nat.strong_induction_on with
  | _ n ih =>
    by_cases hn : n < 10
    · rw [Nat.toDigits_of_lt_base hn] at h
      have hdigit : ∀ k < 10, k.digitChar = '0' → k = 0 := by decide
      exact hdigit n hn (Option.some.inj h)
    · have hlt : n / 10 < n := Nat.div_lt_self (by omega) (by decide)
      rw [Nat.toDigits_of_base_le (by decide) (by omega), List.head?_append,
        List.head?_eq_some_head Nat.toDigits_ne_nil] at h
      have hzero := ih (n / 10) hlt (by rw [List.head?_eq_some_head Nat.toDigits_ne_nil]; exact h)
      omega

theorem isWhole_toDigits (n : ℕ) : IsWhole (Nat.toDigits 10 n) where
  toIsDigits := isDigits_toDigits n
  leading h := by rw [leading_toDigits n h]; rfl

/-- The literal of a count. -/
def Literal.ofNat (n : ℕ) : Literal := ⟨false, Nat.toDigits 10 n, none, none⟩

theorem Literal.proper_ofNat (n : ℕ) : (Literal.ofNat n).Proper :=
  ⟨isWhole_toDigits n, nofun, nofun⟩

theorem Literal.chars_ofNat (n : ℕ) : (Literal.ofNat n).chars = Nat.toDigits 10 n := by
  simp [chars, signChars, fracChars, expChars, ofNat]

/-- The digits of a number stand for that number. -/
theorem ofDigits_toDigits (n : ℕ) : ofDigits (Nat.toDigits 10 n) = n :=
  Nat.ofDigitChars_ten_toDigits

/-- A count that is not too large is read back. -/
theorem natural?_toDigits {bound n : ℕ} (h : n ≤ bound) :
    natural? bound (Nat.toDigits 10 n) = some n := by
  have hparts : parts (Nat.toDigits 10 n) = ⟨false, n, 0, true⟩ := by
    rw [← Literal.chars_ofNat, Literal.parts_chars (Literal.proper_ofNat n)]
    simp [Literal.ofNat, Literal.fracDigits, Literal.shift, Literal.fracChars, Literal.expChars,
      ofDigits_toDigits]
  simp [natural?, hparts, h]

end Json.Number

end Conic
