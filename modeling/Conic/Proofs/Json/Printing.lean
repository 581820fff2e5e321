import Conic.Json.Reader
import Conic.Json.Writer
import Conic.Proofs.Json.Numerals

/-!
# What is written is read back

A value that does not break is *complete*.  `Json.read_write` says that the text of
a complete value is read back as this value, with nothing behind it.  The proof follows
the reader, which takes the items of a list one by one up to the bracket.  Every item but
the first has a comma before it (`listed`).

The reader is given three steps for each character.  The bounds on `fuel` say how that
budget is shared out: a value needs three times its length, and so do the items of a list
with their commas and the bracket behind them.
-/

namespace Conic.Json

open Number

/-! ## Strings -/

theorem hexDigit?_hexChar : ∀ n < 16, hexDigit? (hexChar n) = some n := by decide

theorem utf8Size_hexChar : ∀ n < 16, (hexChar n).utf8Size = 1 := by decide

/-- A control character is written as its code. -/
theorem hexCode_control {n : ℕ} (hn : n < 32) (rest : List Char) :
    hexCode ('0' :: '0' :: hexChar (n / 16) :: hexChar (n % 16) :: rest) = .ok (n, rest) := by
  have hzero : hexDigit? '0' = some 0 := by decide
  have hhigh := hexDigit?_hexChar (n / 16) (by omega)
  have hlow := hexDigit?_hexChar (n % 16) (by omega)
  have hsizes : (hexChar (n / 16)).utf8Size = 1 ∧ (hexChar (n % 16)).utf8Size = 1 :=
    ⟨utf8Size_hexChar _ (by omega), utf8Size_hexChar _ (by omega)⟩
  have hsize : ('0' : Char).utf8Size = 1 := by decide
  have hn' : 256 * 0 + 16 * (n / 16) + n % 16 = n := by omega
  simp [hexCode, hzero, hhigh, hlow, hsizes, hsize]
  omega

/-- A character that is not escaped stands for itself. -/
theorem readText_plain (fuel : ℕ) (acc : List Char) {c : Char} (rest : List Char)
    (hquote : c ≠ '"') (hbackslash : c ≠ '\\') (hcontrol : ¬ c.toNat < 0x20) :
    readText (fuel + 1) (some acc) (c :: rest) = readText fuel (some (c :: acc)) rest := by
  rw [readText.eq_def]
  simp only
  split
  next heq => cases heq
  next heq => exact absurd (List.cons.inj heq).1 hquote
  next heq => exact absurd (List.cons.inj heq).1 hbackslash
  next heq => exact absurd (List.cons.inj heq).1 hbackslash
  next heq => exact absurd (List.cons.inj heq).1 hbackslash
  next heq =>
    obtain ⟨rfl, rfl⟩ := List.cons.inj heq
    rw [if_neg hcontrol]
    rfl

/-- A character is read back as it was written. -/
theorem readText_escapeChar (fuel : ℕ) (acc : List Char) (c : Char) (rest : List Char) :
    readText (fuel + 1) (some acc) (escapeChar c ++ rest) =
      readText fuel (some (c :: acc)) rest := by
  rw [escapeChar.eq_def]
  split
  case h_8 hquote hbackslash _ _ _ _ _ =>
    split
    next hc =>
      have hcode := hexCode_control hc rest
      have hleading : isLeading c.toNat = false := by simp [isLeading]; omega
      have htrailing : isTrailing c.toNat = false := by simp [isTrailing]; omega
      simp only [List.cons_append, List.nil_append, readText, hcode, hleading, htrailing,
        Bool.false_eq_true, if_false, Option.map_some, Char.ofNat_toNat]
    next hc => exact readText_plain fuel acc rest hquote hbackslash hc
  all_goals simp [readText, escape?]

theorem escapeChar_ne_nil (c : Char) : escapeChar c ≠ [] := by
  rw [escapeChar.eq_def]
  split
  case h_8 => split <;> simp
  all_goals simp

/-- A string is read back up to its closing quote. -/
theorem readText_escaped {fuel : ℕ} (acc cs rest : List Char) (hfuel : cs.length < fuel) :
    readText fuel (some acc) (cs.flatMap escapeChar ++ '"' :: rest) =
      .complete (some (acc.reverse ++ cs)) rest := by
  induction cs generalizing fuel acc with
  | nil =>
    obtain ⟨fuel, rfl⟩ : ∃ n, fuel = n + 1 := ⟨fuel - 1, by simp at hfuel; omega⟩
    simp [readText]
  | cons c cs ih =>
    obtain ⟨fuel, rfl⟩ : ∃ n, fuel = n + 1 := ⟨fuel - 1, by simp at hfuel; omega⟩
    rw [List.flatMap_cons, List.append_assoc, readText_escapeChar, ih _ (by simpa using hfuel)]
    simp

theorem toList_quote (s : String) :
    (quote s).toList = '"' :: s.toList.flatMap escapeChar ++ ['"'] := String.toList_ofList

/-- A string is not longer than its text. -/
theorem length_lt_quote (s : String) : s.toList.length < (quote s).toList.length := by
  have hle : s.toList.length ≤ (s.toList.flatMap escapeChar).length := by
    induction s.toList with
    | nil => simp
    | cons c cs ih =>
      have hpos := List.length_pos_iff.mpr (escapeChar_ne_nil c)
      simp only [List.flatMap_cons, List.length_append, List.length_cons]
      omega
  rw [toList_quote]
  simp only [List.length_cons, List.length_append, List.length_nil]
  omega

/-! ## Complete values -/

mutual

/-- A value that does not break.  Its numbers are literals. -/
def Value.Complete : Value → Prop
  | .null => True
  | .bool _ => True
  | .number literal => ∃ L : Literal, L.Proper ∧ L.chars = literal
  | .string text => text.isSome
  | .array items ending => ending = .closed ∧ CompleteItems items
  | .object members ending => ending = .closed ∧ CompleteMembers members
  | .broken _ => False

/-- All items are complete. -/
def CompleteItems : List Value → Prop
  | [] => True
  | v :: vs => v.Complete ∧ CompleteItems vs

/-- All members are complete. -/
def CompleteMembers : List (Option String × Value) → Prop
  | [] => True
  | (name, v) :: vs => name.isSome ∧ v.Complete ∧ CompleteMembers vs

end

/-- What stands before a text.  Only the first of several texts has no comma before it. -/
def separator (first : Bool) : List Char := if first then [] else [',']

/-- Texts with a comma between any two of them, and before the first one unless it is the
first of all. -/
def listed (first : Bool) : List String → List Char
  | [] => []
  | t :: ts => separator first ++ (t.toList ++ listed false ts)

theorem toList_intercalate (ts : List String) :
    (String.intercalate "," ts).toList = listed true ts := by
  induction ts with
  | nil => rfl
  | cons t ts ih =>
    cases ts with
    | nil => simp [listed, separator]
    | cons t' ts =>
      rw [String.intercalate_cons_cons, String.toList_append, String.toList_append, ih]
      simp [listed, separator]

/-- A comma or a bracket ends a number. -/
theorem numberEnds_listed (ts : List String) {close : Char}
    (hclose : close = ']' ∨ close = '\x7d') (rest : List Char) :
    NumberEnds (listed false ts ++ close :: rest) := by
  cases ts with
  | nil =>
    rcases hclose with rfl | rfl
    all_goals
      refine ⟨fun c hc => ?_, fun c hc => ?_⟩ <;> cases hc <;> decide
  | cons t ts => refine ⟨fun c hc => ?_, fun c hc => ?_⟩ <;> cases hc <;> decide

/-! ## Reading a value -/

theorem ne_of_isDigit {c : Char} (hc : c = '-' ∨ c.isDigit = true) :
    isBlank c = false ∧ c ∉ [']', '"', '[', '\x7b', 'n', 't', 'f'] := by
  rcases hc with rfl | hc
  · decide
  · refine ⟨?_, ?_⟩
    · rw [isBlank]
      simp only [Bool.or_eq_false_iff, beq_eq_false_iff_ne]
      refine ⟨⟨⟨?_, ?_⟩, ?_⟩, ?_⟩ <;> rintro rfl <;> cases hc
    · intro hmem
      simp only [List.mem_cons, List.not_mem_nil, or_false] at hmem
      rcases hmem with rfl | rfl | rfl | rfl | rfl | rfl | rfl <;> cases hc

theorem skipBlanks_cons {c : Char} (hc : isBlank c = false) (cs : List Char) :
    skipBlanks (c :: cs) = c :: cs := by
  simp [skipBlanks, hc]

/-- The text of a complete value begins with a character that is no blank and does not
close a list. -/
theorem exists_write_eq_cons {v : Value} (hv : v.Complete) :
    ∃ c cs, v.write.toList = c :: cs ∧ isBlank c = false ∧ c ≠ ']' := by
  cases v with
  | null => exact ⟨'n', _, rfl, by decide, by decide⟩
  | bool b =>
    cases b
    · exact ⟨'f', _, rfl, by decide, by decide⟩
    · exact ⟨'t', _, rfl, by decide, by decide⟩
  | number literal =>
    obtain ⟨L, hL, rfl⟩ := hv
    obtain ⟨c, cs, hchars, hc⟩ := Literal.exists_chars_eq_cons hL
    obtain ⟨hblank, hmem⟩ := ne_of_isDigit hc
    refine ⟨c, cs, by rw [Value.write, String.toList_ofList, hchars], hblank, ?_⟩
    rintro rfl
    exact hmem (by simp)
  | string text =>
    obtain ⟨s, rfl⟩ := Option.isSome_iff_exists.mp hv
    exact ⟨'"', _, by rw [Value.write, toList_quote]; rfl, by decide, by decide⟩
  | array items ending =>
    exact ⟨'[', _, by rw [Value.write, String.toList_append, String.toList_append]; rfl, by decide,
      by decide⟩
  | object members ending =>
    exact ⟨'\x7b', _, by rw [Value.write, String.toList_append, String.toList_append]; rfl,
      by decide, by decide⟩
  | broken how => exact hv.elim

theorem exists_fuel {v : Value} (hv : v.Complete) {fuel : ℕ}
    (hfuel : 3 * v.write.toList.length ≤ fuel) : ∃ n, fuel = n + 1 := by
  obtain ⟨c, cs, hcons, -⟩ := exists_write_eq_cons hv
  have hpos := congrArg List.length hcons
  rw [List.length_cons] at hpos
  exact Nat.exists_eq_add_of_le' (by omega)

/-- A number is read as its literal. -/
theorem readValue_number {L : Literal} (hL : L.Proper) {rest : List Char} (hrest : NumberEnds rest)
    (fuel : ℕ) : readValue (fuel + 1) (L.chars ++ rest) = (.number L.chars, some rest) := by
  obtain ⟨c, cs, hchars, hc⟩ := Literal.exists_chars_eq_cons hL
  obtain ⟨hblank, hmem⟩ := ne_of_isDigit hc
  have hscan := Literal.scan_append hL hrest
  rw [hchars, List.cons_append] at hscan ⊢
  rw [readValue, skipBlanks_cons hblank]
  split
  case h_1 heq => cases heq
  case h_8 heq =>
    obtain ⟨rfl, rfl⟩ := List.cons.inj heq
    rw [if_pos hc, hscan]
  all_goals
    next heq =>
      obtain ⟨rfl, -⟩ := List.cons.inj heq
      exact absurd (by simp) hmem

/-- A word is read back. -/
theorem readWord_append (word : List Char) (v : Value) (rest : List Char) :
    readWord word v (word ++ rest) = (v, some rest) := by
  induction word with
  | nil => rfl
  | cons w ws ih => rw [List.cons_append, readWord, if_pos rfl, ih]

/-- An item and those behind it are read one after the other. -/
theorem readItem_cons {fuel : ℕ} {cs rest rest' : List Char} {v : Value} {vs : List Value}
    (hv : readValue fuel cs = (v, some rest))
    (hvs : readItems fuel false rest = (vs, .closed, some rest')) :
    readItem (fuel + 1) cs = (v :: vs, .closed, some rest') := by
  simp only [readItem, hv, hvs]

/-- Reading goes on with an item. -/
theorem readItems_separator (fuel : ℕ) (first : Bool) {c : Char} (hblank : isBlank c = false)
    (hclose : c ≠ ']') (cs : List Char) :
    readItems (fuel + 1) first (separator first ++ c :: cs) = readItem fuel (c :: cs) := by
  cases first with
  | true =>
    rw [separator, if_pos rfl, List.nil_append, readItems, skipBlanks_cons hblank]
    split
    case h_1 heq => cases heq
    case h_2 heq => exact absurd (List.cons.inj heq).1 hclose
    case h_3 heq =>
      obtain ⟨rfl, rfl⟩ := List.cons.inj heq
      rw [if_pos rfl]
  | false =>
    have hcomma : isBlank ',' = false := by decide
    show readItems (fuel + 1) false (',' :: c :: cs) = _
    rw [readItems, skipBlanks_cons hcomma]
    split
    case h_1 heq => cases heq
    case h_2 heq => cases heq
    case h_3 heq =>
      obtain ⟨rfl, rfl⟩ := List.cons.inj heq
      rw [if_neg Bool.false_ne_true, if_pos rfl, skipBlanks_cons hblank]
      split
      case h_1 heq => cases heq
      case h_2 heq => exact absurd (List.cons.inj heq).1 hclose
      case h_3 heq =>
        obtain ⟨rfl, rfl⟩ := List.cons.inj heq
        rfl

/-- Reading goes on with a member. -/
theorem readMembers_separator (fuel : ℕ) (first : Bool) (cs : List Char) :
    readMembers (fuel + 1) first (separator first ++ '"' :: cs) =
      readMember fuel (!first) ('"' :: cs) := by
  have hquote : isBlank '"' = false := by decide
  have hcomma : isBlank ',' = false := by decide
  cases first with
  | true =>
    rw [separator, if_pos rfl, List.nil_append, readMembers, skipBlanks_cons hquote]
    rfl
  | false =>
    show readMembers (fuel + 1) false (',' :: '"' :: cs) = _
    rw [readMembers, skipBlanks_cons hcomma]
    rfl

/-- A member and those behind it are read one after the other. -/
theorem readMember_cons {fuel : ℕ} (afterComma : Bool) {s : String} {cs rest rest' : List Char}
    {v : Value} {vs : List (Option String × Value)} (hfuel : s.toList.length < fuel)
    (hv : readValue fuel cs = (v, some rest))
    (hvs : readMembers fuel false rest = (vs, .closed, some rest')) :
    readMember (fuel + 1) afterComma ((quote s).toList ++ ':' :: cs) =
      ((some s, v) :: vs, .closed, some rest') := by
  have hname : readText fuel (some []) (s.toList.flatMap escapeChar ++ '"' :: ':' :: cs) =
      .complete (some s.toList) (':' :: cs) := readText_escaped [] s.toList (':' :: cs) hfuel
  have hcolon : skipBlanks (':' :: cs) = ':' :: cs := skipBlanks_cons (by decide) cs
  have htext : (quote s).toList ++ ':' :: cs =
      '"' :: (s.toList.flatMap escapeChar ++ '"' :: ':' :: cs) := by
    rw [toList_quote]
    simp
  rw [htext, readMember]
  simp only [hname, hcolon, hv, hvs, Option.map_some, String.ofList_toList]

mutual

/-- A complete value is read back. -/
theorem readValue_write : ∀ (v : Value) (fuel : ℕ) {rest : List Char}, v.Complete →
    NumberEnds rest → 3 * v.write.toList.length ≤ fuel →
    readValue fuel (v.write.toList ++ rest) = (v, some rest)
  | .null, fuel, rest, hv, hrest, hfuel => by
    obtain ⟨fuel, rfl⟩ := exists_fuel hv hfuel
    exact readWord_append ['u', 'l', 'l'] .null rest
  | .bool true, fuel, rest, hv, hrest, hfuel => by
    obtain ⟨fuel, rfl⟩ := exists_fuel hv hfuel
    exact readWord_append ['r', 'u', 'e'] (.bool true) rest
  | .bool false, fuel, rest, hv, hrest, hfuel => by
    obtain ⟨fuel, rfl⟩ := exists_fuel hv hfuel
    exact readWord_append ['a', 'l', 's', 'e'] (.bool false) rest
  | .number literal, fuel, rest, hv, hrest, hfuel => by
    obtain ⟨fuel, rfl⟩ := exists_fuel hv hfuel
    obtain ⟨L, hL, rfl⟩ := hv
    rw [Value.write, String.toList_ofList]
    exact readValue_number hL hrest fuel
  | .string none, fuel, rest, hv, hrest, hfuel => by cases hv
  | .string (some s), fuel, rest, hv, hrest, hfuel => by
    have hlength := length_lt_quote s
    rw [Value.write] at hfuel ⊢
    obtain ⟨fuel, rfl⟩ : ∃ n, fuel = n + 1 := ⟨fuel - 1, by omega⟩
    have htext : readText fuel (some []) (s.toList.flatMap escapeChar ++ '"' :: rest) =
        .complete (some s.toList) rest := readText_escaped [] s.toList rest (by omega)
    have hquote : isBlank '"' = false := by decide
    have hchars : (quote s).toList ++ rest =
        '"' :: (s.toList.flatMap escapeChar ++ '"' :: rest) := by
      rw [toList_quote]
      simp
    rw [hchars, readValue, skipBlanks_cons hquote]
    simp only [htext, Option.map_some, String.ofList_toList]
  | .array vs ending, fuel, rest, ⟨hending, hvs⟩, hrest, hfuel => by
    subst hending
    have hchars : (Value.array vs .closed).write.toList ++ rest =
        '[' :: (listed true (writeItems vs) ++ ']' :: rest) := by
      rw [Value.write, String.toList_append, String.toList_append, toList_intercalate]
      simp
    have hlength := congrArg List.length hchars
    simp only [List.length_append, List.length_cons] at hlength
    obtain ⟨fuel, rfl⟩ : ∃ n, fuel = n + 1 := Nat.exists_eq_add_of_le' (by omega)
    have hitems := readItems_listed vs true fuel rest hvs (by omega)
    have hopen : isBlank '[' = false := by decide
    rw [hchars, readValue, skipBlanks_cons hopen]
    simp only [hitems]
  | .object vs ending, fuel, rest, ⟨hending, hvs⟩, hrest, hfuel => by
    subst hending
    have hchars : (Value.object vs .closed).write.toList ++ rest =
        '\x7b' :: (listed true (writeMembers vs) ++ '\x7d' :: rest) := by
      rw [Value.write, String.toList_append, String.toList_append, toList_intercalate]
      simp
    have hlength := congrArg List.length hchars
    simp only [List.length_append, List.length_cons] at hlength
    obtain ⟨fuel, rfl⟩ : ∃ n, fuel = n + 1 := Nat.exists_eq_add_of_le' (by omega)
    have hmembers := readMembers_listed vs true fuel rest hvs (by omega)
    have hopen : isBlank '\x7b' = false := by decide
    rw [hchars, readValue, skipBlanks_cons hopen]
    simp only [hmembers]
  | .broken how, fuel, rest, hv, hrest, hfuel => hv.elim

/-- Complete items are read back up to the bracket behind them. -/
theorem readItems_listed : ∀ (vs : List Value) (first : Bool) (fuel : ℕ) (rest : List Char),
    CompleteItems vs → 3 * (listed first (writeItems vs)).length + 2 ≤ fuel →
    readItems fuel first (listed first (writeItems vs) ++ ']' :: rest) = (vs, .closed, some rest)
  | [], first, fuel, rest, hvs, hfuel => by
    obtain ⟨fuel, rfl⟩ : ∃ n, fuel = n + 1 := Nat.exists_eq_add_of_le' (by omega)
    rfl
  | v :: vs, first, fuel, rest, ⟨hv, hvs⟩, hfuel => by
    obtain ⟨c, cs, hcons, hblank, hclose⟩ := exists_write_eq_cons hv
    have hpos := congrArg List.length hcons
    rw [writeItems, listed] at hfuel ⊢
    simp only [List.length_append, List.length_cons] at hfuel hpos
    obtain ⟨fuel, rfl⟩ : ∃ n, fuel = n + 2 := Nat.exists_eq_add_of_le' (by omega)
    have hfirst := readValue_write v fuel hv (numberEnds_listed (writeItems vs) (.inl rfl) rest)
      (by omega)
    have hothers := readItems_listed vs false fuel rest hvs (by omega)
    have hitem := readItem_cons hfirst hothers
    rw [hcons] at hitem ⊢
    rw [← hitem]
    simp only [List.append_assoc, List.cons_append]
    exact readItems_separator (fuel + 1) first hblank hclose _

/-- Complete members are read back up to the brace behind them. -/
theorem readMembers_listed : ∀ (vs : List (Option String × Value)) (first : Bool) (fuel : ℕ)
    (rest : List Char), CompleteMembers vs →
    3 * (listed first (writeMembers vs)).length + 2 ≤ fuel →
    readMembers fuel first (listed first (writeMembers vs) ++ '\x7d' :: rest) =
      (vs, .closed, some rest)
  | [], first, fuel, rest, hvs, hfuel => by
    obtain ⟨fuel, rfl⟩ : ∃ n, fuel = n + 1 := Nat.exists_eq_add_of_le' (by omega)
    rfl
  | (none, v) :: vs, first, fuel, rest, ⟨hname, _⟩, hfuel => by cases hname
  | (some s, v) :: vs, first, fuel, rest, ⟨_, hv, hvs⟩, hfuel => by
    have hlength := length_lt_quote s
    have hchars : listed first (writeMembers ((some s, v) :: vs)) = separator first ++
        ((quote s).toList ++ ':' :: (v.write.toList ++ listed false (writeMembers vs))) := by
      rw [writeMembers, listed]
      simp
    rw [hchars] at hfuel ⊢
    simp only [List.length_append, List.length_cons] at hfuel
    obtain ⟨fuel, rfl⟩ : ∃ n, fuel = n + 2 := Nat.exists_eq_add_of_le' (by omega)
    have hfirst := readValue_write v fuel hv
      (numberEnds_listed (writeMembers vs) (.inr rfl) rest) (by omega)
    have hothers := readMembers_listed vs false fuel rest hvs (by omega)
    have hmember := readMember_cons (!first) (s := s) (by omega) hfirst hothers
    rw [toList_quote] at hmember ⊢
    rw [← hmember]
    simp only [List.append_assoc, List.cons_append]
    exact readMembers_separator (fuel + 1) first _

end

/-- The text of a complete value is read back, and nothing stands behind it. -/
theorem read_write {v : Value} (hv : v.Complete) : read v.write = ⟨v, false⟩ := by
  have hends : NumberEnds [] := ⟨nofun, nofun⟩
  have hread := readValue_write v (3 * v.write.toList.length + 3) hv hends (by omega)
  rw [List.append_nil] at hread
  simp only [read, hread]
  rfl

end Conic.Json
