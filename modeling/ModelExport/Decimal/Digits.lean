/-!
# Decimal digits

The digits of a natural number in base ten, most significant first, and
the number that a list of digits stands for. `ofDigits_digits` says that
the digits stand for the number they were taken from.
-/

namespace ModelExport

/-- A decimal digit. -/
abbrev Digit := Fin 10

namespace Digit

def toChar (d : Digit) : Char := Char.ofNat (48 + d.val)

def ofChar? (c : Char) : Option Digit :=
  if h : 48 ≤ c.toNat ∧ c.toNat < 58 then some ⟨c.toNat - 48, by omega⟩ else none

theorem ofChar?_toChar (d : Digit) : ofChar? d.toChar = some d := by
  revert d
  decide

end Digit

/-- The digits of `n`, least significant first. The first argument bounds their number. -/
def digitsUp : Nat → Nat → List Digit
  | 0, _ => []
  | bound + 1, n =>
      if h : n < 10 then [⟨n, h⟩]
      else ⟨n % 10, Nat.mod_lt _ (by decide)⟩ :: digitsUp bound (n / 10)

/-- The digits of `n`, most significant first; zero has one digit. -/
def digits (n : Nat) : List Digit := (digitsUp (n + 1) n).reverse

/-- The number that the digits stand for, most significant first. -/
def ofDigits (ds : List Digit) : Nat := ds.foldl (fun n d => 10 * n + d.val) 0

/-- A natural number in decimal notation. -/
def decimal (n : Nat) : String := String.ofList ((digits n).map Digit.toChar)

theorem digits_ne_nil (n : Nat) : digits n ≠ [] := by
  unfold digits digitsUp
  split <;> simp

theorem ofDigits_append_singleton (ds : List Digit) (d : Digit) :
    ofDigits (ds ++ [d]) = 10 * ofDigits ds + d.val := by
  simp [ofDigits]

theorem ofDigits_reverse_digitsUp {bound n : Nat} (h : n < bound) :
    ofDigits (digitsUp bound n).reverse = n := by
  induction bound generalizing n with
  | zero => omega
  | succ bound ih =>
      unfold digitsUp
      split
      · simp [ofDigits]
      · next hn =>
          rw [List.reverse_cons, ofDigits_append_singleton, ih (by omega)]
          exact Nat.div_add_mod n 10

theorem ofDigits_digits (n : Nat) : ofDigits (digits n) = n :=
  ofDigits_reverse_digitsUp (Nat.lt_succ_self n)

theorem digits_injective {m n : Nat} (h : digits m = digits n) : m = n := by
  rw [← ofDigits_digits m, ← ofDigits_digits n, h]

/-- Different numbers have different decimal notations. -/
theorem decimal_injective {m n : Nat} (h : decimal m = decimal n) : m = n := by
  have hchars : (digits m).map Digit.toChar = (digits n).map Digit.toChar := by
    simpa [decimal] using congrArg String.toList h
  have hback : ∀ ds : List Digit, (ds.map Digit.toChar).filterMap Digit.ofChar? = ds := by
    intro ds
    induction ds with
    | nil => rfl
    | cons d ds ih => simp [Digit.ofChar?_toChar, ih]
  have := congrArg (List.filterMap Digit.ofChar?) hchars
  rw [hback, hback] at this
  exact digits_injective this

/-- An integer in decimal notation. -/
def decimalInt (n : Int) : String :=
  if n < 0 then "-" ++ decimal n.natAbs else decimal n.natAbs

end ModelExport
