import MailruHttp.Foundation.Bytes

/-! The capturing automaton of `regex/dfa.cpp`: edges, the builder functions and
the matcher. `none` marks an access out of range or through a null pointer. -/

namespace MailruHttp.Regex

/-- `state` is the `Edges.size()` that the source puts into an `int`; what becomes of
it there is up to the matcher. -/
structure Edge where
  state : Nat := 0
  begin : Bool := false
  «end» : Bool := false
  not : Bool := false
  final : Bool := false
  c : UInt8 := 0
  not2 : Bool := false
  c2 : UInt8 := 0
  deriving DecidableEq, Repr

def Edge.match (edge : Edge) (c : UInt8) : Edge := { edge with not := false, c := c }

def Edge.notMatch (edge : Edge) (c : UInt8) : Edge := { edge with not := true, c := c }

def Edge.startCaptureGroup (edge : Edge) : Edge := { edge with begin := true }

def Edge.endCaptureGroup (edge : Edge) : Edge := { edge with «end» := true }

/-- The condition under which the matcher's edge loop takes an edge. -/
def Edge.enabled (edge : Edge) (input : UInt8) : Bool :=
  ((edge.c == input && edge.not == false) || (edge.c != input && edge.not == true)) &&
    (if edge.not2 then edge.c2 != input else true)

inductive MatchResultType where
  | mrtError
  | mrtPartial
  | mrtFull
  deriving DecidableEq, Repr

structure MatchResult where
  type : MatchResultType
  result : List (List UInt8)
  deriving DecidableEq, Repr

structure DFA where
  edges : List (List Edge) := []
  deriving DecidableEq, Repr

/-- The `Edge&` a builder function returns: its state and its position there. -/
structure EdgeRef where
  state : Nat
  edge : Nat

namespace DFA

def newState (dfa : DFA) : DFA := ⟨dfa.edges ++ [[]]⟩

/-- Write through an edge reference. -/
def modifyEdge (dfa : DFA) (ref : EdgeRef) (change : Edge → Edge) : DFA :=
  ⟨dfa.edges.modify ref.state fun edges => edges.modify ref.edge change⟩

/-- `push_back` on the edges of the last state, with a reference to the new edge. -/
def pushEdge (dfa : DFA) (edge : Edge) : Option (DFA × EdgeRef) := do
  let edges ← dfa.edges.getLast?
  return (⟨dfa.edges.dropLast ++ [edges ++ [edge]]⟩, ⟨dfa.edges.length - 1, edges.length⟩)

/-- The target is the state after the last one, which does not exist yet. -/
def nextStateOn (dfa : DFA) : Option (DFA × EdgeRef) :=
  dfa.pushEdge { state := dfa.edges.length }

def loopOn (dfa : DFA) : Option (DFA × EdgeRef) :=
  dfa.pushEdge { state := dfa.edges.length - 1 }

/-- `newState().nextStateOn().match(c)`, the chain both string builders repeat. -/
def newStateOn (dfa : DFA) (c : UInt8) : Option (DFA × EdgeRef) := do
  let (dfa, ref) ← dfa.newState.nextStateOn
  return (dfa.modifyEdge ref (·.match c), ref)

/-- The loop over the string; with no letter at all, `result` stays null. -/
def stringShouldContain (dfa : DFA) (s : List UInt8) : Option (DFA × EdgeRef) := do
  let (dfa, result) ← s.foldlM (fun (dfa, _) c => do
    let (dfa, ref) ← dfa.newStateOn c
    return (dfa, some ref)) (dfa, none)
  return (dfa, ← result)

def stringMustEndWidth (dfa : DFA) (c : UInt8) : Option DFA := do
  let (dfa, ref) ← dfa.newStateOn c
  return (dfa.modifyEdge ref ({ · with final := true })).newState

/-- Both `zeroOrInfinityNot` functions: a new state with a loop edge, to which
`loop` sets the condition, and an exit edge on `c`. -/
def zeroOrInfinityNotWith (dfa : DFA) (loop : Edge → Edge) (c : UInt8) : DFA × EdgeRef :=
  let state := dfa.edges.length
  (⟨dfa.edges ++ [[loop { state := state }, Edge.match { state := state + 1 } c]]⟩, ⟨state, 1⟩)

def zeroOrInfinityNot (dfa : DFA) (c : UInt8) : DFA × EdgeRef :=
  dfa.zeroOrInfinityNotWith (·.notMatch c) c

/-- The overload with a second letter that may not occur. -/
def zeroOrInfinityNot2 (dfa : DFA) (c c2 : UInt8) : DFA × EdgeRef :=
  dfa.zeroOrInfinityNotWith (fun edge => { edge.notMatch c with not2 := true, c2 := c2 }) c

/-- The edge loop of the matcher: the last enabled edge wins. -/
def matchedEdge (edges : List Edge) (input : UInt8) : Option Nat :=
  edges.zipIdx.foldl (fun matched (edge, i) => if edge.enabled input then some i else matched) none

end DFA

/-- The `int`s of the matcher: what it makes of the index of a state or of an edge
that is put into one, of the index of a group, and how often a loop from 0 up to
such an index runs. -/
structure Ints where
  state : Nat → Nat
  edge : Nat → Option Nat
  group : Int → Int
  turns : Int → Option Nat

namespace Ints

/-- Integers without bounds. -/
def unbounded : Ints where
  state := id
  edge := some
  group := id
  turns last := some (last + 1).toNat

/-- `int`s of 32 bits. One that is used as an index becomes a `size_t`, and an edge
of -1 is none. A loop up to the greatest one never ends: its counter goes on at
the least, which is no index. -/
def bits32 : Ints where
  state n := toSizeT (toInt n)
  edge i := if toInt i = -1 then none else some (toSizeT (toInt i))
  group := toInt
  turns last := if last = 2 ^ 31 - 1 then none else some (last + 1).toNat

end Ints

namespace DFA

/-- The local variables of the matcher's loop. -/
structure Scan where
  result : List (List UInt8)
  error : Bool
  currentState : Nat
  running : Bool
  currentGroupIndex : Int
  deriving DecidableEq, Repr

/-- `result.Result[i].push_back(input)` for every `i` below `count`. -/
def pushBack (input : UInt8) : Nat → List (List UInt8) → Option (List (List UInt8))
  | 0, result => some result
  | _ + 1, [] => none
  | count + 1, group :: result => (pushBack input count result).map ((group ++ [input]) :: ·)

/-- The loop body on one input byte. -/
def consume (dfa : DFA) (ints : Ints) (scan : Scan) (input : UInt8) : Option Scan := do
  let edges ← dfa.edges[scan.currentState]?
  match (matchedEdge edges input).bind ints.edge with
  | some i =>
    let edge ← edges[i]?
    let groupIndex :=
      if edge.end then ints.group (scan.currentGroupIndex - 1) else scan.currentGroupIndex
    let running := if edge.final then false else scan.running
    let result ← pushBack input (← ints.turns groupIndex) scan.result
    return {
      result := if edge.begin then result ++ [[]] else result
      error := scan.error
      currentState := ints.state edge.state
      running := running
      currentGroupIndex := if edge.begin then ints.group (groupIndex + 1) else groupIndex }
  | none => return { scan with running := false, error := true }

/-- The loop: it ends when it stops running, on an error, or at the end of the input. -/
def scan (dfa : DFA) (ints : Ints) : Scan → List UInt8 → Option Scan
  | scan, [] => some scan
  | scan, input :: rest =>
    if scan.running && !scan.error then (dfa.consume ints scan input).bind (dfa.scan ints · rest)
    else some scan

end DFA

/-- `DFA::match` with the given `int`s. Without states `Edges.size() - 1` wraps round
and equals no state, as in `currentState + 1 ≠ 0`. -/
def DFA.matchWith (dfa : DFA) (ints : Ints) (s : List UInt8) : Option MatchResult := do
  let final ← dfa.scan ints
    { result := [[]], error := false, currentState := 0, running := true, currentGroupIndex := 0 } s
  if final.error then return ⟨.mrtError, [[]]⟩
  else if final.currentState + 1 ≠ dfa.edges.length then return ⟨.mrtPartial, final.result⟩
  else return ⟨.mrtFull, final.result⟩

/-- `DFA::match`, as it runs. -/
def DFA.matchInt (dfa : DFA) (s : List UInt8) : Option MatchResult := dfa.matchWith .bits32 s

/-- `DFA::match`, as it would run if no `int` had a bound. -/
def DFA.match (dfa : DFA) (s : List UInt8) : Option MatchResult := dfa.matchWith .unbounded s

end MailruHttp.Regex
