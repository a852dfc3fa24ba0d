import NetlistCompiler.Circuit

/-!
# Retiming

A retiming gives every vertex an integer lag. A connection with `w` registers has
`w + lag sink - lag source` registers afterwards, and the retiming is legal if no number becomes
negative. Registers around a cycle stay the same in number, and along a way their number changes by
the difference of the lags at its ends.
-/

namespace NetlistCompiler

namespace Circuit

variable {ν ε : Type}

/-- No lag at any vertex. -/
def noLags (c : Circuit ν ε) : Array Int :=
  Array.replicate c.graph.order 0

/-- The number of registers of an edge after retiming. -/
def registersUnder (lags : Array Int) (e : Edge ε) : Int :=
  e.weight + lags.getD e.sink 0 - lags.getD e.source 0

/-- Whether no edge has a negative number of registers after retiming. -/
def isLegal (c : Circuit ν ε) (lags : Array Int) : Bool :=
  c.graph.edges.all fun e => 0 ≤ registersUnder lags e

/-- The combinational delays after retiming. -/
def delaysUnder (c : Circuit ν ε) (a : Arithmetic) (lags : Array Int) :
    Except GraphError (Array Int) :=
  c.delaysWith a (registersUnder lags)

/-- The clock period after retiming. -/
def periodUnder (c : Circuit ν ε) (a : Arithmetic) (lags : Array Int) : Except GraphError Int := do
  return largest (← c.delaysUnder a lags).toList

/-- The circuit after a legal retiming. -/
def retime (c : Circuit ν ε) (lags : Array Int) : Except GraphError (Circuit ν ε) :=
  if c.isLegal lags then
    match ofGraph (c.graph.reweight (registersUnder lags)) with
    | .ok c => .ok c
    | .error e => .error (.internal s!"retimed circuit failed validation: {e.message}")
  else .error (.internal "retiming produces a negative register count")

/-- Adds one to the lag of every vertex that is later than the target, at most `rounds` times over,
until no vertex is. -/
def catchUp (c : Circuit ν ε) (a : Arithmetic) (target : Int) :
    Nat → Array Int → Except GraphError (Array Int)
  | 0, lags => .ok lags
  | rounds + 1, lags => do
    let delays ← c.delaysUnder a lags
    if delays.any fun d => target < d then
      c.catchUp a target rounds
        (lags.mapIdx fun v lag => if target < delays.getD v 0 then lag + 1 else lag)
    else return lags

/-- A legal retiming with a clock period of at most the target, if there is one. -/
def retimeFor (c : Circuit ν ε) (a : Arithmetic) (target : Int) :
    Except GraphError (Option (Array Int)) := do
  let lags ← c.catchUp a target (c.graph.order - 1) c.noLags
  if c.isLegal lags then
    if (← c.periodUnder a lags) ≤ target then return some lags
    else return none
  else return none

/-! ### The least clock period -/

/-- What has been found out about clock periods: lags that meet them, or that there are none. -/
abbrev Memo := List (Int × Option (Array Int))

/-- A step of the search for the least clock period, which remembers what it finds out. -/
abbrev Search := StateT Memo (Except GraphError)

/-- Whether a clock period can be met. It is tried once and remembered. -/
def feasible (c : Circuit ν ε) (a : Arithmetic) (target : Int) : Search Bool := do
  match (← get).lookup target with
  | some known => return known.isSome
  | none =>
    let found ← c.retimeFor a target
    modify fun memo => (target, found) :: memo
    return found.isSome

/-- The first place from `low` up to `high` whose period can be met, where every later one can be
met too. -/
def searchPeriod (c : Circuit ν ε) (a : Arithmetic) (candidates : Array Int) (low high : Nat) :
    Search Nat :=
  if low < high then do
    let middle := low + (high - low) / 2
    if ← c.feasible a (candidates.getD middle 0) then c.searchPeriod a candidates low middle
    else c.searchPeriod a candidates (middle + 1) high
  else return low
termination_by high - low
decreasing_by all_goals omega

/-- The least candidate that can be met. -/
def leastFeasible (c : Circuit ν ε) (a : Arithmetic) (candidates : Array Int) :
    Search (Option Int) := do
  match candidates[← c.searchPeriod a candidates 0 candidates.size]? with
  | none => return none
  | some best =>
    if ← c.feasible a best then return some best
    else return none

/-- A circuit with the least clock period, and the lags that lead to it. -/
structure Minimized (ν ε : Type) where
  circuit : Circuit ν ε
  lags : Array Int
  initialPeriod : Int
  period : Int

/-- The retiming with the least clock period. The current period is among the candidates and can be
met, so the search has a result as long as no delay overflows. -/
def minimizePeriod (c : Circuit ν ε) (a : Arithmetic) : Except GraphError (Minimized ν ε) := do
  let initialPeriod ← c.period a
  let candidates := (c.possiblePeriods a).toArray
  if candidates.isEmpty then return ⟨c, #[], initialPeriod, initialPeriod⟩
  match ← (c.leastFeasible a candidates).run [] with
  | (none, _) =>
    throw (.internal s!"no clock period among {candidates.size} candidates is achievable")
  | (some best, memo) =>
    match (memo.lookup best).join with
    | none => throw (.internal "feasible clock period is missing from the retiming cache")
    | some lags =>
      let retimed ← c.retime lags
      return ⟨retimed, lags, initialPeriod, ← retimed.period a⟩

end Circuit

end NetlistCompiler
