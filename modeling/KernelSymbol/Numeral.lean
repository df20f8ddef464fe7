/-!
# Numerals

Lengths are written in base ten and back-references in base thirty-six, most significant digit
first. Writing never puts a zero in front of another digit; reading accepts such zeros.

Reading is capped: a run of digits whose value reaches the cap reads as the cap. The caps in use
are powers of two, so an arbitrarily long run costs no arithmetic on large numbers.

## Main definitions

* `Radix`, `Radix.base`, `Radix.isDigit` — the two bases and their digits
* `Radix.digits`, `Radix.text` — writing
* `Radix.value`, `Radix.valueUpTo` — reading, exactly and capped

## Main results

* `Radix.value_digits` — a number is read as it was written
* `Radix.isDigit_of_mem_digits`, `Radix.digits_ne_nil` — what is written is a run of digits
* `Radix.valueUpTo_eq` — capped reading is exact reading, capped
-/

namespace KernelSymbol

/-- The bases in which numbers are written. -/
inductive Radix where
  | ten
  | thirtySix
  deriving DecidableEq

namespace Radix

/-- How many digits there are. -/
def base : Radix → Nat
  | ten => 10
  | thirtySix => 36

theorem two_le_base (r : Radix) : 2 ≤ r.base := by cases r <;> decide

theorem base_le (r : Radix) : r.base ≤ 36 := by cases r <;> decide

/-! ### Digits -/

/-- Whether a character is a digit: `0` to `9`, and in base thirty-six also `A` to `Z`. -/
def isDigit : Radix → Char → Bool
  | ten, c => c.isDigit
  | thirtySix, c => c.isDigit || c.isUpper

/-- The value of a digit. -/
def digitValue (c : Char) : Nat := if c.isDigit then c.toNat - 48 else c.toNat - 55

/-- The digit with a given value. -/
def digitChar (d : Nat) : Char := if d < 10 then Char.ofNat (48 + d) else Char.ofNat (55 + d)

private theorem digitChar_table :
    ∀ d : Fin 36, digitValue (digitChar d.1) = d.1 ∧ (digitChar d.1).isDigit = (d.1 < 10 : Bool)
      ∧ (digitChar d.1).isUpper = (10 ≤ d.1 : Bool) := by decide

theorem digitValue_digitChar {d : Nat} (h : d < 36) : digitValue (digitChar d) = d :=
  (digitChar_table ⟨d, h⟩).1

theorem bounds_of_isDigit {c : Char} (h : c.isDigit = true) : 48 ≤ c.toNat ∧ c.toNat ≤ 57 := by
  simpa [Char.isDigit, UInt32.le_iff_toNat_le] using h

theorem bounds_of_isUpper {c : Char} (h : c.isUpper = true) : 65 ≤ c.toNat ∧ c.toNat ≤ 90 := by
  obtain ⟨hA, hZ⟩ : 'A'.val ≤ c.val ∧ c.val ≤ 'Z'.val := of_decide_eq_true h
  exact ⟨UInt32.le_iff_toNat_le.1 hA, UInt32.le_iff_toNat_le.1 hZ⟩

theorem digitChar_digitValue {c : Char} (h : c.isDigit = true) : digitChar (digitValue c) = c := by
  have hc := bounds_of_isDigit h
  rw [digitValue, if_pos h, digitChar, if_pos (by omega), Nat.add_sub_cancel' hc.1,
    Char.ofNat_toNat]

theorem isDigit_digitChar {r : Radix} {d : Nat} (h : d < r.base) :
    r.isDigit (digitChar d) = true := by
  have h36 : d < 36 := Nat.lt_of_lt_of_le h r.base_le
  obtain ⟨_, hd, hu⟩ := digitChar_table ⟨d, h36⟩
  cases r
  · simp only [isDigit, hd, decide_eq_true_eq]
    exact h
  · simp only [isDigit, hd, hu, Bool.or_eq_true, decide_eq_true_eq]
    omega

/-! ### Writing -/

/-- The digits of a number, most significant first. Zero is the digit zero; no other number
starts with it. -/
def digits (r : Radix) (n : Nat) : List Char :=
  if n < r.base then [digitChar n] else digits r (n / r.base) ++ [digitChar (n % r.base)]
termination_by n
decreasing_by
  have := r.two_le_base
  exact Nat.div_lt_self (by omega) this

/-- A number as text. -/
def text (r : Radix) (n : Nat) : String := String.ofList (r.digits n)

theorem digits_ne_nil (r : Radix) (n : Nat) : r.digits n ≠ [] := by
  rw [digits]
  split <;> simp

theorem isDigit_of_mem_digits {r : Radix} {n : Nat} {c : Char} (h : c ∈ r.digits n) :
    r.isDigit c = true := by
  have hb := r.two_le_base
  fun_induction digits r n with
  | case1 n hn =>
    obtain rfl := List.mem_singleton.1 h
    exact isDigit_digitChar hn
  | case2 n hn ih =>
    rcases List.mem_append.1 h with h | h
    · exact ih h
    · obtain rfl := List.mem_singleton.1 h
      exact isDigit_digitChar (Nat.mod_lt _ (by omega))

theorem length_digits_le (r : Radix) {m n : Nat} (h : m ≤ n) :
    (r.digits m).length ≤ (r.digits n).length := by
  fun_induction digits r m generalizing n with
  | case1 m hm => exact List.length_pos_iff.2 (r.digits_ne_nil n)
  | case2 m hm ih =>
    rw [digits.eq_def r n, if_neg (by omega), List.length_append, List.length_append]
    exact Nat.add_le_add_right (ih (Nat.div_le_div_right h)) 1

/-! ### Reading -/

/-- The value of a run of digits. -/
def value (r : Radix) (cs : List Char) : Nat :=
  cs.foldl (fun v c => v * r.base + digitValue c) 0

/-- The value of a run of digits, or the cap if the value is larger. -/
def valueUpTo (r : Radix) (cap : Nat) (cs : List Char) : Nat :=
  cs.foldl (fun v c => min cap (v * r.base + digitValue c)) 0

theorem value_concat (r : Radix) (cs : List Char) (c : Char) :
    r.value (cs ++ [c]) = r.value cs * r.base + digitValue c := by simp [value]

theorem isDigit_of_mem_replicate_zero {r : Radix} {n : Nat} {c : Char}
    (h : c ∈ List.replicate n '0') : r.isDigit c = true := by
  rw [List.eq_of_mem_replicate h]
  cases r <;> rfl

@[simp] theorem value_replicate_zero (r : Radix) (n : Nat) :
    r.value (List.replicate n '0') = 0 := by
  induction n with
  | zero => rfl
  | succ n ih => rw [List.replicate_succ', value_concat, ih, Nat.zero_mul]; rfl

/-- A number is read as it was written. -/
@[simp] theorem value_digits (r : Radix) (n : Nat) : r.value (r.digits n) = n := by
  have hb := r.base_le
  have h2 := r.two_le_base
  fun_induction digits r n with
  | case1 n hn => simp [value, digitValue_digitChar (Nat.lt_of_lt_of_le hn hb)]
  | case2 n hn ih =>
    rw [value_concat, ih, digitValue_digitChar
      (Nat.lt_of_lt_of_le (Nat.mod_lt _ (by omega)) hb)]
    exact Nat.div_add_mod' n r.base

theorem digits_injective (r : Radix) {m n : Nat} (h : r.digits m = r.digits n) : m = n := by
  rw [← r.value_digits m, h, r.value_digits]

/-- Capped reading is exact reading, capped. -/
theorem valueUpTo_eq (r : Radix) (cap : Nat) (cs : List Char) :
    r.valueUpTo cap cs = min cap (r.value cs) := by
  have hb := r.two_le_base
  have key : ∀ (cs : List Char) (v w : Nat), v = min cap w →
      cs.foldl (fun v c => min cap (v * r.base + digitValue c)) v
        = min cap (cs.foldl (fun v c => v * r.base + digitValue c) w) := by
    intro cs
    induction cs with
    | nil => exact fun v w h => h
    | cons c cs ih =>
      intro v w h
      refine ih _ _ ?_
      subst h
      by_cases hw : w ≤ cap
      · rw [Nat.min_eq_right hw]
      · have hc : cap ≤ cap * r.base := Nat.le_mul_of_pos_right _ (by omega)
        have hm : cap * r.base ≤ w * r.base := Nat.mul_le_mul_right _ (by omega)
        simp only [Nat.min_eq_left (by omega : cap ≤ w)]
        omega
  exact key cs 0 0 (by simp)

end Radix

end KernelSymbol
