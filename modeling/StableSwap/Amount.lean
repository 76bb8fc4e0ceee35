import StableSwap.Word

/-!
# Amounts

Every quantity that a pool stores or pays is an `Amount` of 256 bits. Products
of amounts are formed among the `Wide` numbers of 512 bits and brought back by
`Word.fit`.

Balances of different assets are compared after they have been scaled to a
common unit, which is written with `decimals` decimal places.

Specification: §11 (the widths 256 and 512, `PRECISION`).
-/

namespace StableSwap

/-- A quantity of an asset, of shares, or of the curve. -/
abbrev Amount := Word 256

/-- An intermediate value of the curve arithmetic. -/
abbrev Wide := Word 512

namespace Amount

/-- The number of decimal places of the common unit. -/
def decimals : Nat := 24

/-- The common unit to which balances are scaled, `PRECISION` of §11. It is also the rate of an
    asset that has none of its own. -/
def unit : Amount := ⟨Nat.pow 10 decimals, by decide⟩

/-- The amount among the wide numbers. -/
def wide (a : Amount) : Wide := a.widen

@[simp] theorem val_wide (a : Amount) : a.wide.val = a.val := rfl

/-- What is left of an asset's balance after a payment or fee, which it has to cover (§15). -/
def debit (asset : Nat) (balance charge : Amount) : Except PoolError Amount :=
  demand (balance.sub? charge) (.insufficientBalance asset)

/-- Takes from each balance its charge. The first asset that cannot bear its charge is named. -/
def debitAll (balances charges : List Amount) : Except PoolError (List Amount) :=
  (balances.zip charges).zipIdx.mapM fun ((balance, charge), asset) => debit asset balance charge

/-- What the curve gives up when the balance it requires falls, `grossDy` of §4.4: the fall less
    one, which the pool keeps as the margin for rounding. There is no release unless something is
    left. -/
def released (before required : Amount) : Option Amount :=
  if required.val + 1 < before.val then some (before.monus (required + 1)) else none

theorem debit_eq_ok_iff {asset : Nat} {balance charge rest : Amount} :
    debit asset balance charge = .ok rest ↔ rest.val + charge.val = balance.val := by
  rw [← Word.sub?_eq_some_iff, debit, demand_eq_ok_iff]

theorem debit_eq_error_iff {asset : Nat} {balance charge : Amount} {e : PoolError} :
    debit asset balance charge = .error e ↔
      balance.val < charge.val ∧ e = .insufficientBalance asset := by
  rw [← Word.sub?_eq_none_iff, debit, demand_eq_error_iff]

theorem released_eq_some_iff {before required out : Amount} :
    released before required = some out ↔
      0 < out.val ∧ out.val + required.val + 1 = before.val := by
  unfold released
  split
  · next h =>
    simp only [Option.some.injEq]
    constructor
    · rintro rfl
      rw [Word.val_monus]
      omega
    · intro hout
      exact Word.ext (by rw [Word.val_monus]; omega)
  · next h => exact ⟨nofun, fun hout => by omega⟩

end Amount

end StableSwap
