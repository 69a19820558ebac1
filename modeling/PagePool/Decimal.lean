namespace PagePool.Decimal

/-- The integer nearest to `n / d`; a half goes to the even neighbour. -/
def roundHalfEven (n d : Nat) : Nat :=
  let q := n / d
  let r := n % d
  if 2 * r > d ∨ (2 * r = d ∧ q % 2 = 1) then q + 1 else q

/-- A finite non-negative float as `m * 2 ^ e / 2 ^ 1075`, with `m` and `e` from its bits. -/
def parts (x : Float) : Nat × Nat :=
  let bits := x.toBits.toNat
  let exponent := (bits >>> 52) % (1 <<< 11)
  let fraction := bits % (1 <<< 52)
  if exponent = 0 then (fraction, 1) else (fraction + (1 <<< 52), exponent)

/-- The text of `n / 10 ^ places`. -/
def pointText (places n : Nat) : String :=
  let unit := Nat.pow 10 places
  let frac := toString (n % unit)
  toString (n / unit) ++ "." ++ "".pushn '0' (places - frac.length) ++ frac

/-- A finite non-negative float with a fixed number of places, rounded from its exact value. -/
def fixed (places : Nat) (x : Float) : String :=
  let (m, e) := parts x
  pointText places (roundHalfEven ((m <<< e) * Nat.pow 10 places) (1 <<< 1075))

end PagePool.Decimal
