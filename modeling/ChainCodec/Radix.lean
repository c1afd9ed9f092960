/-! # Positional digits

    Numbers written in an arbitrary base.  Decimal text, base58 text and the
    seven-bit groups of a variable-length integer are all instances.

    The digits of a number carry no leading zero, so zero has no digits at
    all; a format that writes zero as one digit says so itself. -/

namespace ChainCodec.Radix

/-- The digits of `n`, lowest first, as long as `fuel` lasts. -/
def digitsUpTo (base : Nat) : (fuel : Nat) → Nat → List Nat
  | 0, _ => []
  | fuel + 1, n => if n = 0 then [] else n % base :: digitsUpTo base fuel (n / base)

/-- The digits of `n` in `base`, lowest first.  A number has at most as many
    digits as its own value, so `n` itself is enough fuel. -/
def lowDigits (base n : Nat) : List Nat := digitsUpTo base n n

/-- The digits of `n` in `base`, highest first. -/
def digits (base n : Nat) : List Nat := (lowDigits base n).reverse

/-- The number that digits denote, highest first. -/
def ofDigits (base : Nat) (ds : List Nat) : Nat := ds.foldl (fun n d => base * n + d) 0

@[simp] theorem digits_zero (base : Nat) : digits base 0 = [] := rfl

@[simp] theorem ofDigits_nil (base : Nat) : ofDigits base [] = 0 := rfl

theorem ofDigits_append_singleton (base : Nat) (ds : List Nat) (d : Nat) :
    ofDigits base (ds ++ [d]) = base * ofDigits base ds + d := by
  simp [ofDigits]

theorem digitsUpTo_eq {base n fuel : Nat} (hbase : 1 < base) (hfuel : n ≤ fuel) :
    digitsUpTo base fuel n = lowDigits base n := by
  induction fuel using Nat.strongRecOn generalizing n with
  | ind fuel ih =>
    cases fuel with
    | zero => simp [lowDigits, show n = 0 by omega]
    | succ fuel =>
      by_cases hn : n = 0
      · simp [hn, lowDigits, digitsUpTo]
      · obtain ⟨m, rfl⟩ : ∃ m, n = m + 1 := ⟨n - 1, by omega⟩
        have hdiv : (m + 1) / base < m + 1 := Nat.div_lt_self (by omega) hbase
        simp only [lowDigits, digitsUpTo, hn, if_false]
        rw [ih fuel (by omega) (by omega), ih m (by omega) (by omega)]

theorem lowDigits_of_pos {base n : Nat} (hbase : 1 < base) (hn : 0 < n) :
    lowDigits base n = n % base :: lowDigits base (n / base) := by
  obtain ⟨m, rfl⟩ : ∃ m, n = m + 1 := ⟨n - 1, by omega⟩
  have hdiv : (m + 1) / base < m + 1 := Nat.div_lt_self (by omega) hbase
  have h : digitsUpTo base m ((m + 1) / base) = lowDigits base ((m + 1) / base) :=
    digitsUpTo_eq hbase (by omega)
  simpa [lowDigits, digitsUpTo] using h

theorem digits_of_pos {base n : Nat} (hbase : 1 < base) (hn : 0 < n) :
    digits base n = digits base (n / base) ++ [n % base] := by
  simp [digits, lowDigits_of_pos hbase hn]

theorem ofDigits_digits {base : Nat} (hbase : 1 < base) (n : Nat) :
    ofDigits base (digits base n) = n := by
  induction n using Nat.strongRecOn with
  | ind n ih =>
    by_cases hn : n = 0
    · simp [hn]
    · have hdiv : n / base < n := Nat.div_lt_self (by omega) hbase
      rw [digits_of_pos hbase (by omega), ofDigits_append_singleton, ih _ hdiv]
      exact Nat.div_add_mod n base

end ChainCodec.Radix
