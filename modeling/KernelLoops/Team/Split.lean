import KernelLoops.Amount

set_option autoImplicit false

/-! # Splitting work over a team

A team divides `n` items into contiguous shares in member order. The first members get the quotient
rounded up and the others one less. -/

namespace KernelLoops.Team

/-- The share `[start, end)` of member `tid` of a team. -/
def share (n team tid : Amount) : Amount × Amount :=
  if team ≤ 1 || n = 0 then (0, n)
  else
    let more := (n + team - 1) / team
    let less := more - 1
    let first := n - less * team
    if tid < first then (more * tid, more * tid + more)
    else
      let start := more * first + less * (tid - first)
      (start, start + less)

/-- The members of a team of at most `workers`: each with its number and the size of the team. -/
def members (workers size : Amount) : List (Amount × Amount) :=
  if size ≤ 0 then []
  else
    let size := min size workers
    (List.range size.trips).map fun i => (Int64.ofNat i, size)

/-- The non-empty shares of `n` items, over a team of at most `size` members; without a positive
    size every worker takes part. -/
def shares (workers n size : Amount) : List (Amount × Amount) :=
  if n ≤ 0 then []
  else
    let size := if size ≤ 0 then workers else size
    ((members workers (min (min size workers) n)).map fun (i, team) => share n team i).filter
      fun (start, stop) => start < stop

end KernelLoops.Team
