import MailruHttp.Regex.Implements

/-! Chains of builder calls, the language each chain stands for, and the proof
that the automaton they build implements the pieces of that language. -/

namespace MailruHttp.Regex

open Library

/-- The builder functions that append states and return an edge. -/
inductive Combinator where
  | stringShouldContain (s : List UInt8) (nonempty : s ≠ [])
  | zeroOrInfinityNot (c : UInt8)
  | zeroOrInfinityNot2 (c c2 : UInt8)

/-- One builder call with the capture marks set on the edge it returns. -/
structure Call where
  combinator : Combinator
  begin : Bool := false
  «end» : Bool := false

def Combinator.build (dfa : DFA) : Combinator → Option (DFA × EdgeRef)
  | .stringShouldContain s _ => dfa.stringShouldContain s
  | .zeroOrInfinityNot c => some (dfa.zeroOrInfinityNot c)
  | .zeroOrInfinityNot2 c c2 => some (dfa.zeroOrInfinityNot2 c c2)

/-- The marks as `startCaptureGroup` and `endCaptureGroup` set them. -/
def Call.mark (call : Call) (edge : Edge) : Edge :=
  let edge := if call.begin then edge.startCaptureGroup else edge
  if call.end then edge.endCaptureGroup else edge

def Call.build (dfa : DFA) (call : Call) : Option DFA := do
  let (dfa, ref) ← call.combinator.build dfa
  return dfa.modifyEdge ref call.mark

/-- The calls in order on an empty automaton, then `stringMustEndWidth`. -/
def compile (calls : List Call) (e : UInt8) : Option DFA := do
  let dfa ← calls.foldlM Call.build {}
  dfa.stringMustEndWidth e

def Combinator.language : Combinator → Language UInt8
  | .stringShouldContain s _ => {s}
  | .zeroOrInfinityNot c => {word | ∃ u, c ∉ u ∧ word = u ++ [c]}
  | .zeroOrInfinityNot2 c c2 => {word | ∃ u, c ∉ u ∧ c2 ∉ u ∧ word = u ++ [c]}

/-- The concatenated language of a chain of calls ended by one byte. -/
def callsLanguage (calls : List Call) (e : UInt8) : Language UInt8 :=
  (calls.map fun call => call.combinator.language).prod * {[e]}

def untilNot (c : UInt8) : Segment UInt8 := ⟨fun a => a != c, c, by simp⟩

def untilNot2 (c c2 : UInt8) : Segment UInt8 := ⟨fun a => a != c && a != c2, c, by simp⟩

def Combinator.segments : Combinator → List (Segment UInt8)
  | .stringShouldContain s _ => s.map Segment.letter
  | .zeroOrInfinityNot c => [untilNot c]
  | .zeroOrInfinityNot2 c c2 => [untilNot2 c c2]

theorem Combinator.language_eq (combinator : Combinator) :
    combinator.language = chainLanguage combinator.segments := by
  have single (segment : Segment UInt8) : chainLanguage [segment] = segment.language := by
    simp [chainLanguage]
  cases combinator with
  | stringShouldContain s _ => exact (chainLanguage_letters s).symm
  | zeroOrInfinityNot c =>
    rw [segments, single]
    ext word
    have free (u : List UInt8) : (∀ a ∈ u, (untilNot c).skip a = true) ↔ c ∉ u := by
      simp only [untilNot, bne_iff_ne]
      exact ⟨fun skips present => skips c present rfl, fun absent a present same => absent (same ▸ present)⟩
    change (∃ u, c ∉ u ∧ word = u ++ [c]) ↔ ∃ u, (∀ a ∈ u, (untilNot c).skip a = true) ∧ word = u ++ [c]
    simp only [free]
  | zeroOrInfinityNot2 c c2 =>
    rw [segments, single]
    ext word
    have free (u : List UInt8) : (∀ a ∈ u, (untilNot2 c c2).skip a = true) ↔ c ∉ u ∧ c2 ∉ u := by
      simp only [untilNot2, Bool.and_eq_true, bne_iff_ne]
      exact ⟨fun skips => ⟨fun present => (skips c present).1 rfl, fun present => (skips c2 present).2 rfl⟩,
        fun absent a present => ⟨fun same => absent.1 (same ▸ present), fun same => absent.2 (same ▸ present)⟩⟩
    change (∃ u, c ∉ u ∧ c2 ∉ u ∧ word = u ++ [c]) ↔
      ∃ u, (∀ a ∈ u, (untilNot2 c c2).skip a = true) ∧ word = u ++ [c]
    simp only [free, and_assoc]

/-- Marks go to the last of the pieces a call appends. -/
def markedPieces (begin «end» : Bool) : List (Segment UInt8) → List Piece
  | [] => []
  | [segment] => [⟨segment, begin, «end»⟩]
  | segment :: rest => ⟨segment, false, false⟩ :: markedPieces begin «end» rest

def Call.pieces (call : Call) : List Piece :=
  markedPieces call.begin call.end call.combinator.segments

def pieces (calls : List Call) (e : UInt8) : List Piece :=
  calls.flatMap Call.pieces ++ [⟨Segment.letter e, false, false⟩]

theorem markedPieces_segments (begin «end» : Bool) (segments : List (Segment UInt8)) :
    (markedPieces begin «end» segments).map Piece.segment = segments := by
  induction segments with
  | nil => rfl
  | cons segment rest ih => cases rest <;> simp_all [markedPieces]

/-- The language of the calls is the chain language of their pieces. -/
theorem callsLanguage_eq (calls : List Call) (e : UInt8) :
    callsLanguage calls e = chainLanguage ((pieces calls e).map Piece.segment) := by
  have whole : (calls.map fun call => call.combinator.language).prod =
      chainLanguage ((calls.flatMap Call.pieces).map Piece.segment) := by
    induction calls with
    | nil => rfl
    | cons call rest ih =>
      rw [List.map_cons, List.prod_cons, ih, List.flatMap_cons, List.map_append,
        chainLanguage_append, Call.pieces, markedPieces_segments, call.combinator.language_eq]
  have last := chainLanguage_letters [e]
  rw [callsLanguage, whole, pieces, List.map_append, chainLanguage_append, ← last]
  rfl

namespace DFA

theorem modifyEdge_last (front : List (List Edge)) (edges : List Edge) (i : Nat)
    (change : Edge → Edge) :
    modifyEdge ⟨front ++ [edges]⟩ ⟨front.length, i⟩ change = ⟨front ++ [edges.modify i change]⟩ := by
  simp [modifyEdge, List.modify_eq_take_cons_drop]

theorem newStateOn_eq (dfa : DFA) (c : UInt8) :
    dfa.newStateOn c = some (⟨dfa.edges ++ [[{ state := dfa.edges.length + 1, c := c }]]⟩,
      ⟨dfa.edges.length, 0⟩) := by
  simp [newStateOn, nextStateOn, pushEdge, newState, modifyEdge_last, Edge.match]

theorem stringMustEndWidth_eq (dfa : DFA) (c : UInt8) :
    dfa.stringMustEndWidth c = some
      ⟨dfa.edges ++ [[{ state := dfa.edges.length + 1, c := c, final := true }], []]⟩ := by
  simp [stringMustEndWidth, newStateOn_eq, newState, modifyEdge_last]

/-- The states the string builder appends before its last letter. -/
def letterStates (state : Nat) : List UInt8 → List (List Edge)
  | [] => []
  | c :: s => [{ state := state + 1, c := c }] :: letterStates (state + 1) s

@[simp] theorem length_letterStates (state : Nat) (s : List UInt8) :
    (letterStates state s).length = s.length := by
  induction s generalizing state with
  | nil => rfl
  | cons c s ih => simp [letterStates, ih]

theorem stringShouldContain_fold (s : List UInt8) (dfa : DFA) (ref : Option EdgeRef) :
    ∃ last, s.foldlM (fun (dfa, _) c => do
      let (dfa, ref) ← newStateOn dfa c
      return (dfa, some ref)) (dfa, ref) =
        some ((⟨dfa.edges ++ letterStates dfa.edges.length s⟩ : DFA), last) := by
  induction s generalizing dfa ref with
  | nil => exact ⟨ref, by simp [letterStates]⟩
  | cons c s ih =>
    obtain ⟨last, folded⟩ := ih ⟨dfa.edges ++ [[{ state := dfa.edges.length + 1, c := c }]]⟩
      (some ⟨dfa.edges.length, 0⟩)
    refine ⟨last, ?_⟩
    simpa [newStateOn_eq, letterStates] using folded

theorem stringShouldContain_eq (dfa : DFA) (s : List UInt8) (c : UInt8) :
    dfa.stringShouldContain (s ++ [c]) = some
      (⟨dfa.edges ++ letterStates dfa.edges.length s ++
          [[{ state := dfa.edges.length + s.length + 1, c := c }]]⟩,
        ⟨dfa.edges.length + s.length, 0⟩) := by
  obtain ⟨last, folded⟩ := stringShouldContain_fold s dfa none
  simp only [stringShouldContain, List.foldlM_append, folded]
  simp [newStateOn_eq]

end DFA

theorem takes_single {edge : Edge} (enabled : edge.enabled input = true) :
    Takes [edge] input edge :=
  ⟨0, by simp [DFA.matchedEdge, enabled], rfl⟩

theorem takes_loop {loop exit : Edge} (enabled : loop.enabled input = true)
    (disabled : exit.enabled input = false) : Takes [loop, exit] input loop :=
  ⟨0, by simp [DFA.matchedEdge, enabled, disabled], rfl⟩

theorem takes_exit {loop exit : Edge} (enabled : exit.enabled input = true) :
    Takes [loop, exit] input exit :=
  ⟨1, by simp [DFA.matchedEdge, enabled], rfl⟩

theorem realizes_letter (state : Nat) (c : UInt8) (begin «end» final : Bool) :
    Realizes [{ state := state + 1, begin, «end», final, c }] state final
      ⟨Segment.letter c, begin, «end»⟩ where
  size := Nat.le_succ 1
  stops := ⟨_, takes_single (by simp [Edge.enabled, Segment.letter]), rfl, rfl, rfl, rfl⟩
  skips := by simp [Segment.letter]
  rejects := by
    intro input different _
    have different : c ≠ input := Ne.symm different
    simp [DFA.matchedEdge, Edge.enabled, different]

/-- A loop edge that is enabled exactly on the skipped bytes, next to an exit
edge on the stop byte, realizes a segment. -/
theorem realizes_loop (state : Nat) (loop : Edge) (segment : Segment UInt8) (begin «end» : Bool)
    (enabled : ∀ input, loop.enabled input = segment.skip input) (target : loop.state = state)
    (plain : loop.final = false ∧ loop.begin = false ∧ loop.end = false) :
    Realizes [loop, { state := state + 1, begin, «end», c := segment.stop }] state false
      ⟨segment, begin, «end»⟩ where
  size := Nat.le_refl 2
  stops := ⟨_, takes_exit (by simp [Edge.enabled]), rfl, rfl, rfl, rfl⟩
  skips := by
    intro input skips
    have different : segment.stop ≠ input := by
      intro same
      rw [← same, segment.excluded] at skips
      cases skips
    refine ⟨loop, takes_loop ?_ ?_, target, plain⟩
    · rw [enabled, skips]
    · simpa [Edge.enabled] using different
  rejects := by
    intro input different skips
    have loopOff : loop.enabled input = false := by rw [enabled, skips]
    have exitOff : Edge.enabled { state := state + 1, begin, «end», c := segment.stop } input = false := by
      simpa [Edge.enabled] using Ne.symm different
    simp [DFA.matchedEdge, loopOff, exitOff]

/-- States from index `state` on, each realizing its piece. -/
def Realized (state : Nat) : List (List Edge) → List Piece → Prop
  | [], [] => True
  | edges :: states, piece :: pieces =>
    Realizes edges state false piece ∧ Realized (state + 1) states pieces
  | _, _ => False

theorem Realized.length {states : List (List Edge)} {pieces : List Piece}
    (realized : Realized state states pieces) : states.length = pieces.length := by
  induction states generalizing state pieces with
  | nil => cases pieces <;> simp_all [Realized]
  | cons edges states ih =>
    cases pieces with
    | nil => simp [Realized] at realized
    | cons piece pieces => simp [ih realized.2]

theorem Realized.append {first second : List (List Edge)} {front back : List Piece}
    (realized : Realized state first front) (rest : Realized (state + first.length) second back) :
    Realized state (first ++ second) (front ++ back) := by
  induction first generalizing state front with
  | nil =>
    cases front with
    | nil => simpa using rest
    | cons piece front => simp [Realized] at realized
  | cons edges first ih =>
    cases front with
    | nil => simp [Realized] at realized
    | cons piece front =>
      refine ⟨realized.1, ih realized.2 ?_⟩
      simpa [Nat.add_assoc, Nat.add_comm 1] using rest

theorem Realized.get {states : List (List Edge)} {front rest : List Piece} {piece : Piece}
    (realized : Realized state states (front ++ piece :: rest)) :
    ∃ edges, states[front.length]? = some edges ∧
      Realizes edges (state + front.length) false piece := by
  induction front generalizing state states with
  | nil =>
    cases states with
    | nil => simp [Realized] at realized
    | cons edges states => exact ⟨edges, rfl, realized.1⟩
  | cons other front ih =>
    cases states with
    | nil => simp [Realized] at realized
    | cons edges states =>
      obtain ⟨found, present, realizes⟩ := ih realized.2
      refine ⟨found, by simpa using present, ?_⟩
      simpa [Nat.add_assoc, Nat.add_comm 1] using realizes

theorem realized_letters (state : Nat) (s : List UInt8) (c : UInt8) (begin «end» : Bool) :
    Realized state (DFA.letterStates state s ++ [[{ state := state + s.length + 1, begin, «end», c }]])
      (markedPieces begin «end» ((s ++ [c]).map Segment.letter)) := by
  induction s generalizing state with
  | nil => exact ⟨realizes_letter state c begin «end» false, trivial⟩
  | cons a s ih =>
    have rest := ih (state + 1)
    have shape : markedPieces begin «end» ((a :: s ++ [c]).map Segment.letter) =
        ⟨Segment.letter a, false, false⟩ :: markedPieces begin «end» ((s ++ [c]).map Segment.letter) := by
      cases s <;> rfl
    rw [shape]
    refine ⟨realizes_letter state a false false false, ?_⟩
    simpa [Nat.add_assoc, Nat.add_comm 1] using rest

/-- A builder call appends states that realize its pieces. -/
theorem Call.build_realized (call : Call) (dfa : DFA) :
    ∃ states, call.build dfa = some ⟨dfa.edges ++ states⟩ ∧
      Realized dfa.edges.length states call.pieces := by
  obtain ⟨combinator, begin, «end»⟩ := call
  cases combinator with
  | stringShouldContain s nonempty =>
    obtain ⟨front, c, rfl⟩ := (List.eq_nil_or_concat' s).resolve_left nonempty
    refine ⟨_, ?_, realized_letters dfa.edges.length front c begin «end»⟩
    have position : (dfa.edges ++ DFA.letterStates dfa.edges.length front).length =
        dfa.edges.length + front.length := by simp
    simp only [Call.build, Combinator.build, DFA.stringShouldContain_eq, Option.bind_eq_bind,
      Option.bind_some, ← position, DFA.modifyEdge_last]
    cases begin <;> cases «end» <;> simp [Call.mark, Edge.startCaptureGroup, Edge.endCaptureGroup]
  | zeroOrInfinityNot c =>
    have enabled (input : UInt8) : Edge.enabled { state := dfa.edges.length, not := true, c := c } input =
        (untilNot c).skip input := by
      simp [Edge.enabled, untilNot, bne_comm]
    have realizes := realizes_loop dfa.edges.length _ (untilNot c) begin «end» enabled rfl ⟨rfl, rfl, rfl⟩
    have realized : Realized dfa.edges.length [_] [_] := ⟨realizes, trivial⟩
    refine ⟨_, ?_, realized⟩
    · simp only [Call.build, Combinator.build, DFA.zeroOrInfinityNot, DFA.zeroOrInfinityNotWith,
        Option.bind_eq_bind, Option.bind_some, DFA.modifyEdge_last]
      cases begin <;> cases «end» <;> rfl
  | zeroOrInfinityNot2 c c2 =>
    have enabled (input : UInt8) :
        Edge.enabled { state := dfa.edges.length, not := true, c := c, not2 := true, c2 := c2 } input =
          (untilNot2 c c2).skip input := by
      simp [Edge.enabled, untilNot2, bne_comm]
    have realizes := realizes_loop dfa.edges.length _ (untilNot2 c c2) begin «end» enabled rfl ⟨rfl, rfl, rfl⟩
    have realized : Realized dfa.edges.length [_] [_] := ⟨realizes, trivial⟩
    refine ⟨_, ?_, realized⟩
    · simp only [Call.build, Combinator.build, DFA.zeroOrInfinityNot2, DFA.zeroOrInfinityNotWith,
        Option.bind_eq_bind, Option.bind_some, DFA.modifyEdge_last]
      cases begin <;> cases «end» <;> rfl

theorem calls_realized (calls : List Call) (dfa : DFA) (built : List Piece)
    (realized : Realized 0 dfa.edges built) :
    ∃ states, calls.foldlM Call.build dfa = some ⟨states⟩ ∧
      Realized 0 states (built ++ calls.flatMap Call.pieces) := by
  induction calls generalizing dfa built with
  | nil => exact ⟨dfa.edges, rfl, by simpa using realized⟩
  | cons call calls ih =>
    obtain ⟨states, success, appended⟩ := call.build_realized dfa
    obtain ⟨final, rest, whole⟩ := ih ⟨dfa.edges ++ states⟩ (built ++ call.pieces)
      (realized.append (by simpa using appended))
    refine ⟨final, ?_, by simpa using whole⟩
    simp [success, rest]

/-- Every chain of builder calls compiles, and its automaton implements the
pieces of the chain. -/
theorem compile_implements (calls : List Call) (e : UInt8) :
    ∃ dfa, compile calls e = some dfa ∧ Implements dfa (pieces calls e) := by
  obtain ⟨states, built, realized⟩ := calls_realized calls {} [] trivial
  have size := realized.length
  simp only [List.nil_append] at realized size
  refine ⟨_, by simp [compile, built, DFA.stringMustEndWidth_eq]; rfl, ?_, ?_⟩
  · simp [pieces, size]
  · intro front piece rest split
    rcases List.eq_nil_or_concat' rest with empty | ⟨middle, last, same⟩
    · subst empty
      obtain ⟨fronts, ends⟩ := List.append_inj' (split : _ ++ [_] = _) rfl
      cases ends
      have position : states.length = front.length := by rw [size, fronts]
      refine ⟨_, by rw [← position]; simp; rfl, ?_⟩
      rw [← position]
      exact realizes_letter states.length e false false true
    · subst same
      have fronts : calls.flatMap Call.pieces = front ++ piece :: middle := by
        have whole : calls.flatMap Call.pieces ++ [⟨Segment.letter e, false, false⟩] =
            (front ++ piece :: middle) ++ [last] := by simpa [pieces] using split
        exact (List.append_inj' whole rfl).1
      rw [fronts] at realized size
      obtain ⟨edges, present, realizes⟩ := realized.get
      have more : (middle ++ [last]).isEmpty = false := by cases middle <;> rfl
      refine ⟨edges, ?_, by simpa [more] using realizes⟩
      have inside : front.length < states.length := by simp [size]
      simpa [List.getElem?_append_left inside] using present

end MailruHttp.Regex
