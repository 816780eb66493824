import Mathlib.Logic.Basic
import ScriptIndent.Text.Integer

/-!
# ScriptIndent.Proofs.Text.Numeral

Whole numbers that are written are read back.

```
-120      a sign and decimal digits, without space around them and without low lines
 120      digits whose values make up the number
```

Only numbers of too many digits are written and not read (`integer?_toString`).
-/

namespace ScriptIndent.Text

/-! ## digits -/

theorem toNat_of_isDigit {c : Char} (h : c.isDigit = true) : 48 ≤ c.toNat ∧ c.toNat ≤ 57 := by
  simpa [Char.isDigit, UInt32.le_iff_toNat_le] using h

theorem isDigit_of_mem_toDigits {n : Nat} : ∀ c ∈ Nat.toDigits 10 n, c.isDigit = true :=
  fun _ hc => Nat.isDigit_of_mem_toDigits (by decide) (by decide) hc

private theorem digitValue?_of_isDigit {c : Char} (h : c.isDigit = true) :
    digitValue? c = some (c.toNat - '0'.toNat) := by
  have hfirst : (decide (48 ≤ c.toNat) && decide (c.toNat < 48 + 10)) = true := by
    have := toNat_of_isDigit h
    simp only [Bool.and_eq_true, decide_eq_true_eq]
    omega
  unfold digitValue? zeros
  rw [List.find?_cons, hfirst]
  rfl

/-- Digits are no low lines, so that they are taken one by one. -/
theorem digitValues?_of_isDigit {s : List Char} (hs : s ≠ []) (h : ∀ c ∈ s, c.isDigit = true) :
    digitValues? s = some (s.map fun c => c.toNat - '0'.toNat) := by
  induction s with
  | nil => exact absurd rfl hs
  | cons c rest ih =>
    rw [List.forall_mem_cons] at h
    have hvalue := digitValue?_of_isDigit h.1
    cases rest with
    | nil => simp [digitValues?, hvalue]
    | cons d rest =>
      have hd : d ≠ '_' := by
        rintro rfl
        exact absurd (h.2 '_' List.mem_cons_self) (by decide)
      have hrest := ih (List.cons_ne_nil d rest) h.2
      rw [digitValues?.eq_def]
      simp [hvalue, hd, hrest]

/-- The digits of a number make it up. -/
theorem natural?_toDigits {n : Nat} (h : (Nat.toDigits 10 n).length ≤ maxDigits) :
    natural? (Nat.toDigits 10 n) = some n := by
  have hne : Nat.toDigits 10 n ≠ [] := List.ne_nil_of_length_pos Nat.length_toDigits_pos
  have hvalue : ofDigits ((Nat.toDigits 10 n).map fun c => c.toNat - '0'.toNat) = n := by
    rw [ofDigits, List.foldl_map, ← Nat.ofDigitChars_eq_foldl]
    exact Nat.ofDigitChars_toDigits (by decide) (by decide)
  rw [natural?, digitValues?_of_isDigit hne isDigit_of_mem_toDigits,
    Option.filter_some_pos (by simpa using h), Option.map_some, hvalue]

/-! ## numbers -/

/-- A minus and the digits stand together, behind all of the basic alphabet that is space. -/
theorem isNumberSpace_eq_false {c : Char} (h : c.isDigit = true ∨ c = '-') :
    isNumberSpace c = false := by
  have hrange : 45 ≤ c.toNat ∧ c.toNat < 58 := by
    obtain h | rfl := h
    · have := toNat_of_isDigit h
      omega
    · decide
  have hblank : ∀ n < 58, 45 ≤ n → blanks.contains n = false := by decide
  rw [isNumberSpace, isBlank, hblank c.toNat hrange.2 hrange.1, Bool.false_and]

theorem trimNumber_eq_self {s : List Char} (h : ∀ c ∈ s, c.isDigit = true ∨ c = '-') :
    trimNumber s = s := by
  have hkept {t : List Char} (ht : ∀ c ∈ t, c.isDigit = true ∨ c = '-') :
      t.dropWhile isNumberSpace = t := by
    cases t with
    | nil => rfl
    | cons c t =>
      rw [List.dropWhile_cons, isNumberSpace_eq_false (ht c List.mem_cons_self)]
      rfl
  rw [trimNumber, hkept h, hkept fun c hc => h c (List.mem_reverse.1 hc), List.reverse_reverse]

/-- Digits have no sign. -/
theorem integer?_of_isDigit {s : String} (h : ∀ c ∈ s.toList, c.isDigit = true) {n : Nat}
    (hn : natural? s.toList = some n) : integer? s = some (n : Int) := by
  rw [integer?, trimNumber_eq_self fun c hc => .inl (h c hc)]
  split
  · next rest heq => exact absurd (h '-' (heq ▸ List.mem_cons_self)) (by decide)
  · next rest heq => exact absurd (h '+' (heq ▸ List.mem_cons_self)) (by decide)
  · simp [hn]

theorem integer?_toString {i : Int} (h : (Nat.toDigits 10 i.natAbs).length ≤ maxDigits) :
    integer? (toString i) = some i := by
  cases i with
  | ofNat n =>
    have htext : (toString (Int.ofNat n)).toList = Nat.toDigits 10 n := Nat.toList_repr
    refine integer?_of_isDigit (fun c hc => ?_) ?_
    · rw [htext] at hc
      exact isDigit_of_mem_toDigits c hc
    · rw [htext]
      exact natural?_toDigits h
  | negSucc n =>
    have htext : (toString (Int.negSucc n)).toList = '-' :: Nat.toDigits 10 (n + 1) := by
      rw [← Nat.toList_repr]
      exact String.toList_append
    have htrim : trimNumber ('-' :: Nat.toDigits 10 (n + 1)) = '-' :: Nat.toDigits 10 (n + 1) := by
      refine trimNumber_eq_self fun c hc => ?_
      obtain rfl | hc := List.mem_cons.1 hc
      · exact .inr rfl
      · exact .inl (isDigit_of_mem_toDigits c hc)
    have hn : natural? (Nat.toDigits 10 (n + 1)) = some (n + 1) := natural?_toDigits h
    simp only [integer?, htext, htrim, hn]
    rfl

end ScriptIndent.Text
