set_option autoImplicit false

/-! # Amounts

Work amounts, increments, pointer steps and offsets are 64-bit words: sums and products wrap around,
quotients and remainders go toward zero. The largest word stands for an amount that is only known
when the kernel runs. -/

namespace KernelLoops

/-- A 64-bit quantity: a work amount, an increment, a pointer step or an offset. -/
abbrev Amount := Int64

namespace Amount

/-- The amount that is only known when the kernel runs. -/
def dynamic : Amount := Int64.maxValue

/-- Is the amount only known when the kernel runs? -/
def isDynamic (n : Amount) : Bool := n == dynamic

/-- A loop that counts up to `n` runs this often: never, when `n` is negative. -/
def trips (n : Amount) : Nat := n.toInt.toNat

/-- The product of a list of sizes. -/
def product (sizes : List Amount) : Amount := sizes.foldl (· * ·) 1

/-- An amount as it is printed where it may be dynamic. -/
def render (n : Amount) : String := if n.isDynamic then "?" else toString n

/-- Rounds `n` up to a multiple of `alignment`. -/
def alignUp (n alignment : Amount) : Amount := (n + alignment - 1) / alignment * alignment

end Amount

/-! ## Lists in text -/

/-- The items between square brackets, divided by commas. -/
def bracketed (items : List String) : String := "[" ++ ",".intercalate items ++ "]"

/-- Amounts as a bracketed list. -/
def renderAmounts (ns : List Amount) : String := bracketed (ns.map toString)

end KernelLoops
