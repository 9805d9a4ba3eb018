import MailruHttp.Library.Bracketing
import MailruHttp.Regex.Correctness

/-! What the groups of a properly bracketed chain should hold, and what the
matcher puts there: its group index counts the open groups, not the groups so far. -/

namespace MailruHttp.Regex

open Library

/-- A call and the word of the input that its states consume. -/
abbrev Part := Call × List UInt8

def consumed (parts : List Part) : List UInt8 := parts.flatMap Prod.snd

/-- The bytes up to the edge that closes the group, of which `depth` inner ones
are open. That edge consumes the last byte of its part. -/
def groupContent : Nat → List Part → List UInt8
  | _, [] => []
  | depth, (call, word) :: parts =>
    if call.end then
      match depth with
      | 0 => word.dropLast
      | depth + 1 => word ++ groupContent depth parts
    else word ++ groupContent (if call.begin then depth + 1 else depth) parts

/-- The content of every group, in the order in which they are opened. -/
def contents : List Part → List (List UInt8)
  | [] => []
  | (call, _) :: parts => if call.begin then groupContent 0 parts :: contents parts else contents parts

/-- The groups that are opened before the first end mark. -/
def openedEarly (calls : List Call) : Nat := (calls.takeWhile (!·.end)).countP (·.begin)

/-- How a chain reads an input up to the byte on its final edge. -/
structure Reads (calls : List Call) (e : UInt8) (input : List UInt8) (parts : List Part)
    (rest : List UInt8) : Prop where
  calls : parts.map Prod.fst = calls
  words : ∀ part ∈ parts, part.2 ∈ part.1.combinator.language
  input : input = consumed parts ++ e :: rest

/-- A part consumes at least the byte on its exit edge. -/
theorem language_ne_nil {combinator : Combinator} {word : List UInt8}
    (member : word ∈ combinator.language) : word ≠ [] := by
  cases combinator with
  | stringShouldContain s nonempty =>
    rw [Set.mem_singleton_iff.mp member]
    exact nonempty
  | zeroOrInfinityNot c =>
    obtain ⟨u, _, rfl⟩ := member
    simp
  | zeroOrInfinityNot2 c c2 =>
    obtain ⟨u, _, _, rfl⟩ := member
    simp

namespace Captures

/-- Reading one part: the marks take effect around its last byte. -/
def readPart (captures : Captures) (call : Call) (word : List UInt8) (stop : UInt8) : Captures :=
  let before := captures.append word
  let closed := if call.end then before.close else before
  let appended := closed.append [stop]
  if call.begin then appended.opened else appended

end Captures

theorem advances_letters (s : List UInt8) (c : UInt8) (begin «end» : Bool) (more : List Piece)
    (captures : Captures) (input : List UInt8) :
    Reading.advances (markedPieces begin «end» ((s ++ [c]).map Segment.letter) ++ more, captures)
        (s ++ c :: input) =
      Reading.advances (⟨Segment.letter c, begin, «end»⟩ :: more, captures.append s) (c :: input) := by
  induction s generalizing captures with
  | nil => simp [markedPieces]
  | cons a s ih =>
    have shape : markedPieces begin «end» ((a :: s ++ [c]).map Segment.letter) =
        ⟨Segment.letter a, false, false⟩ :: markedPieces begin «end» ((s ++ [c]).map Segment.letter) := by
      cases s <;> rfl
    have first := Reading.advances_stop ⟨Segment.letter a, false, false⟩
      (markedPieces begin «end» ((s ++ [c]).map Segment.letter) ++ more) captures (s ++ c :: input)
    have left : captures.leave ⟨Segment.letter a, false, false⟩ a = captures.append [a] := rfl
    rw [shape]
    refine first.trans ?_
    change Reading.advances (_, captures.leave ⟨Segment.letter a, false, false⟩ a) _ = _
    rw [left, ih, Captures.append_append]
    rfl

/-- Skipped bytes and the stop byte of one piece. -/
theorem advances_word (piece : Piece) (more : List Piece) (captures : Captures)
    {front : List UInt8} (skips : ∀ a ∈ front, piece.segment.skip a = true) (input : List UInt8) :
    Reading.advances (piece :: more, captures) (front ++ piece.segment.stop :: input) =
      Reading.advances (more, (captures.append front).leave piece piece.segment.stop) input := by
  rw [Reading.advances_skipped piece more captures front _ skips, Reading.advances_stop]

/-- The pieces of a call consume a word of its language. -/
theorem advances_part (call : Call) {word : List UInt8}
    (member : word ∈ call.combinator.language) :
    ∃ front stop, word = front ++ [stop] ∧ ∀ more captures input,
      Reading.advances (call.pieces ++ more, captures) (word ++ input) =
        Reading.advances (more, captures.readPart call front stop) input := by
  obtain ⟨combinator, begin, «end»⟩ := call
  cases combinator with
  | stringShouldContain s nonempty =>
    obtain ⟨front, c, rfl⟩ := (List.eq_nil_or_concat' s).resolve_left nonempty
    obtain rfl : word = front ++ [c] := member
    refine ⟨front, c, rfl, fun more captures input => ?_⟩
    have letters := advances_letters front c begin «end» more captures input
    have last := Reading.advances_stop ⟨Segment.letter c, begin, «end»⟩ more (captures.append front) input
    rw [List.append_assoc]
    exact letters.trans last
  | zeroOrInfinityNot c =>
    obtain ⟨front, absent, rfl⟩ := member
    refine ⟨front, c, rfl, fun more captures input => ?_⟩
    have skips : ∀ a ∈ front, (untilNot c).skip a = true := by
      intro a inside
      exact bne_iff_ne.mpr fun same => absent (same ▸ inside)
    rw [List.append_assoc]
    exact advances_word ⟨untilNot c, begin, «end»⟩ more captures skips input
  | zeroOrInfinityNot2 c c2 =>
    obtain ⟨front, absent, absent2, rfl⟩ := member
    refine ⟨front, c, rfl, fun more captures input => ?_⟩
    have skips : ∀ a ∈ front, (untilNot2 c c2).skip a = true := by
      intro a inside
      have different : a ≠ c := fun same => absent (same ▸ inside)
      have different2 : a ≠ c2 := fun same => absent2 (same ▸ inside)
      simp [untilNot2, different, different2]
    rw [List.append_assoc]
    exact advances_word ⟨untilNot2 c c2, begin, «end»⟩ more captures skips input

/-- The groups up to the current one, which all take the next bytes, and those
beyond it, which take none. -/
structure Captures.Split (captures : Captures) (current beyond : List (List UInt8)) : Prop where
  groups : captures.groups = current ++ beyond
  depth : (current.length : Int) = captures.depth + 1

theorem appendFirst_split (word : List UInt8) (current beyond : List (List UInt8)) :
    appendFirst word current.length (current ++ beyond) = current.map (· ++ word) ++ beyond := by
  induction current with
  | nil => rfl
  | cons group current ih => simp [appendFirst, ih]

theorem Captures.Split.append {captures : Captures} {current beyond : List (List UInt8)}
    (split : captures.Split current beyond) (word : List UInt8) :
    (captures.append word).Split (current.map (· ++ word)) beyond := by
  obtain ⟨groups, depth⟩ := split
  have count : (captures.depth + 1).toNat = current.length := by omega
  refine ⟨?_, by rw [List.length_map]; exact depth⟩
  change appendFirst word (captures.depth + 1).toNat captures.groups = _
  rw [groups, count, appendFirst_split]

theorem Captures.Split.close {captures : Captures} {current beyond : List (List UInt8)}
    {last : List UInt8} (split : captures.Split (current ++ [last]) beyond) :
    captures.close.Split current (last :: beyond) := by
  obtain ⟨groups, depth⟩ := split
  refine ⟨by simp [Captures.close, groups], ?_⟩
  simp only [List.length_append, List.length_singleton] at depth
  simp only [Captures.close]
  omega

/-- Opening a group adds a new one at the end, but the one that becomes current is
the first beyond: a closed one, where there is any. -/
theorem Captures.Split.opened {captures : Captures} {current beyond : List (List UInt8)}
    (split : captures.Split current beyond) :
    captures.opened.Split (current ++ [(beyond ++ [[]]).headD []]) (beyond ++ [[]]).tail := by
  obtain ⟨groups, depth⟩ := split
  refine ⟨?_, by simp [Captures.opened]; omega⟩
  cases beyond <;> simp [Captures.opened, groups]

section ReadPart

variable {captures : Captures} {current beyond : List (List UInt8)} {call : Call}
variable (front : List UInt8) (stop : UInt8)

theorem Captures.Split.whole (split : captures.Split current beyond) :
    ((captures.append front).append [stop]).Split (current.map (· ++ (front ++ [stop]))) beyond := by
  rw [Captures.append_append]
  exact split.append (front ++ [stop])

theorem Captures.Split.readPlain (split : captures.Split current beyond)
    (plain : call.begin = false ∧ call.end = false) :
    (captures.readPart call front stop).Split (current.map (· ++ (front ++ [stop]))) beyond := by
  simp only [Captures.readPart, plain, Bool.false_eq_true, ↓reduceIte]
  exact split.whole front stop

theorem Captures.Split.readOpening (split : captures.Split current beyond)
    (opening : call.begin = true ∧ call.end = false) :
    (captures.readPart call front stop).Split
      (current.map (· ++ (front ++ [stop])) ++ [(beyond ++ [[]]).headD []]) (beyond ++ [[]]).tail := by
  simp only [Captures.readPart, opening, Bool.false_eq_true, ↓reduceIte]
  exact (split.whole front stop).opened

theorem Captures.Split.readClosing {last : List UInt8}
    (split : captures.Split (current ++ [last]) beyond)
    (closing : call.begin = false ∧ call.end = true) :
    (captures.readPart call front stop).Split (current.map (· ++ (front ++ [stop])))
      ((last ++ front) :: beyond) := by
  simp only [Captures.readPart, closing, Bool.false_eq_true, ↓reduceIte]
  have before := split.append front
  rw [List.map_append] at before
  have after := before.close.append [stop]
  rw [List.map_map] at after
  simpa [Function.comp_def] using after

end ReadPart

/-- What the matcher makes of the groups beyond the current one. -/
def beyondAfter (beyond : List (List UInt8)) : Bracketing Part → List (List UInt8)
  | .nil => beyond
  | .single _ rest => beyondAfter beyond rest
  | .group _ inner last rest =>
    let started := beyond ++ [[]]
    beyondAfter ((started.headD [] ++ consumed inner.flatten ++ last.2.dropLast) ::
      beyondAfter started.tail inner) rest

abbrev PartsMarked (tree : Bracketing Part) : Prop :=
  tree.Marked (fun part => part.1.begin) (fun part => part.1.end)

/-- Every part was consumed by its call. -/
def Spoken (parts : List Part) : Prop := ∀ part ∈ parts, part.2 ∈ part.1.combinator.language

theorem spoken_cons {part : Part} {parts : List Part} :
    Spoken (part :: parts) ↔ part.2 ∈ part.1.combinator.language ∧ Spoken parts :=
  List.forall_mem_cons

theorem spoken_append {first second : List Part} :
    Spoken (first ++ second) ↔ Spoken first ∧ Spoken second := List.forall_mem_append

@[simp] theorem consumed_nil : consumed [] = [] := rfl

@[simp] theorem consumed_cons (part : Part) (parts : List Part) :
    consumed (part :: parts) = part.2 ++ consumed parts := List.flatMap_cons

@[simp] theorem consumed_append (first second : List Part) :
    consumed (first ++ second) = consumed first ++ consumed second := List.flatMap_append

/-- The pieces of the calls of some parts. -/
def piecesOf (parts : List Part) : List Piece := parts.flatMap fun part => part.1.pieces

theorem piecesOf_cons (part : Part) (parts : List Part) :
    piecesOf (part :: parts) = part.1.pieces ++ piecesOf parts := List.flatMap_cons

theorem piecesOf_append (first second : List Part) :
    piecesOf (first ++ second) = piecesOf first ++ piecesOf second := List.flatMap_append

/-- Reading a bracketed part of a chain, from any captures. -/
theorem advances_tree (tree : Bracketing Part) (marked : PartsMarked tree)
    (spoken : Spoken tree.flatten) (more : List Piece) {captures : Captures}
    {current beyond : List (List UInt8)} (split : captures.Split current beyond)
    (input : List UInt8) :
    ∃ after, after.Split (current.map (· ++ consumed tree.flatten)) (beyondAfter beyond tree) ∧
      Reading.advances (piecesOf tree.flatten ++ more, captures) (consumed tree.flatten ++ input) =
        Reading.advances (more, after) input := by
  induction tree generalizing more captures current beyond input with
  | nil => exact ⟨captures, by simpa [Bracketing.flatten, beyondAfter] using split, rfl⟩
  | single part rest ih =>
    obtain ⟨plain, marked⟩ := marked
    obtain ⟨word, spoken⟩ := spoken_cons.mp spoken
    obtain ⟨front, stop, same, reads⟩ := advances_part part.1 word
    obtain ⟨after, later, reading⟩ := ih marked spoken more (split.readPlain front stop plain) input
    rw [List.map_map] at later
    refine ⟨after, by simpa [Bracketing.flatten, beyondAfter, same, Function.comp_def] using later, ?_⟩
    rw [Bracketing.flatten, piecesOf_cons, consumed_cons, List.append_assoc, List.append_assoc, reads,
      reading]
  | group first inner last rest ihInner ihRest =>
    obtain ⟨opening, markedInner, closing, markedRest⟩ := marked
    obtain ⟨firstWord, spoken⟩ := spoken_cons.mp spoken
    obtain ⟨spokenInner, spoken⟩ := spoken_append.mp spoken
    obtain ⟨lastWord, spokenRest⟩ := spoken_cons.mp spoken
    obtain ⟨front, stop, same, readsFirst⟩ := advances_part first.1 firstWord
    obtain ⟨lastFront, lastStop, lastSame, readsLast⟩ := advances_part last.1 lastWord
    obtain ⟨middle, afterInner, readInner⟩ := ihInner markedInner spokenInner
      (piecesOf (last :: rest.flatten) ++ more) (split.readOpening front stop opening)
      (consumed (last :: rest.flatten) ++ input)
    rw [List.map_append, List.map_map] at afterInner
    have afterLast := afterInner.readClosing lastFront lastStop closing
    obtain ⟨after, afterRest, readRest⟩ := ihRest markedRest spokenRest more afterLast input
    rw [List.map_map, List.map_map] at afterRest
    refine ⟨after, ?_, ?_⟩
    · simpa [Bracketing.flatten, beyondAfter, same, lastSame, Function.comp_def] using afterRest
    · rw [← readRest, ← readsLast, ← List.append_assoc last.2, ← consumed_cons, ← List.append_assoc,
        ← piecesOf_cons, ← readInner, ← readsFirst]
      simp only [Bracketing.flatten, piecesOf_cons, piecesOf_append, consumed_cons, consumed_append,
        List.append_assoc]

/-- The contents of the groups of a bracketing, from its shape. -/
def treeContents : Bracketing Part → List (List UInt8)
  | .nil => []
  | .single _ rest => treeContents rest
  | .group _ inner last rest =>
    (consumed inner.flatten ++ last.2.dropLast) :: (treeContents inner ++ treeContents rest)

/-- The contents of the outermost groups, one after the other. -/
def outermost : Bracketing Part → List UInt8
  | .nil => []
  | .single _ rest => outermost rest
  | .group _ inner last rest => consumed inner.flatten ++ last.2.dropLast ++ outermost rest

def openedEarlyTree : Bracketing Part → Nat
  | .nil => 0
  | .single _ rest => openedEarlyTree rest
  | .group _ inner _ _ => openedEarlyTree inner + 1

theorem groupContent_flatten (tree : Bracketing Part) (marked : PartsMarked tree) (depth : Nat)
    (parts : List Part) :
    groupContent depth (tree.flatten ++ parts) = consumed tree.flatten ++ groupContent depth parts := by
  induction tree generalizing depth parts with
  | nil => rfl
  | single part rest ih =>
    obtain ⟨⟨noBegin, noEnd⟩, marked⟩ := marked
    simp [Bracketing.flatten, groupContent, noBegin, noEnd, ih marked]
  | group first inner last rest ihInner ihRest =>
    obtain ⟨⟨opens, noEnd⟩, markedInner, ⟨_, closes⟩, markedRest⟩ := marked
    simp [Bracketing.flatten, groupContent, opens, noEnd, closes, ihInner markedInner,
      ihRest markedRest]

theorem contents_flatten (tree : Bracketing Part) (marked : PartsMarked tree) (parts : List Part) :
    contents (tree.flatten ++ parts) = treeContents tree ++ contents parts := by
  induction tree generalizing parts with
  | nil => rfl
  | single part rest ih =>
    obtain ⟨⟨noBegin, _⟩, marked⟩ := marked
    simp [Bracketing.flatten, contents, treeContents, noBegin, ih marked]
  | group first inner last rest ihInner ihRest =>
    obtain ⟨⟨opens, _⟩, markedInner, ⟨noBegin, closes⟩, markedRest⟩ := marked
    simp [Bracketing.flatten, contents, treeContents, opens, noBegin, closes, ihInner markedInner,
      ihRest markedRest, groupContent_flatten inner markedInner, groupContent]

theorem length_treeContents (tree : Bracketing Part) (marked : PartsMarked tree) :
    (treeContents tree).length = tree.flatten.countP (·.1.begin) := by
  induction tree with
  | nil => rfl
  | single part rest ih =>
    obtain ⟨⟨noBegin, _⟩, marked⟩ := marked
    simp [Bracketing.flatten, treeContents, noBegin, ih marked]
  | group first inner last rest ihInner ihRest =>
    obtain ⟨⟨opens, _⟩, markedInner, ⟨noBegin, _⟩, markedRest⟩ := marked
    simp [Bracketing.flatten, treeContents, opens, noBegin, ihInner markedInner, ihRest markedRest]

/-- Nothing after an end mark counts as early. -/
theorem openedEarly_closing (calls : List Call) {last : Call} (closes : last.end = true)
    (rest : List Call) : openedEarly (calls ++ last :: rest) = openedEarly calls := by
  unfold openedEarly
  rw [List.takeWhile_append]
  split
  · rename_i all
    have whole := (List.takeWhile_prefix (fun call : Call => !call.end)).eq_of_length all
    rw [whole, List.takeWhile_cons_of_neg (by simp [closes]), List.append_nil]
  · rfl

theorem openedEarly_flatten (tree : Bracketing Part) (marked : PartsMarked tree) :
    openedEarly (tree.flatten.map Prod.fst) = openedEarlyTree tree := by
  induction tree with
  | nil => rfl
  | single part rest ih =>
    obtain ⟨⟨noBegin, noEnd⟩, marked⟩ := marked
    simpa [openedEarly, Bracketing.flatten, openedEarlyTree, noBegin, noEnd] using ih marked
  | group first inner last rest ihInner ihRest =>
    obtain ⟨⟨opens, noEnd⟩, markedInner, ⟨_, closes⟩, _⟩ := marked
    have inside := openedEarly_closing (inner.flatten.map Prod.fst) closes (rest.flatten.map Prod.fst)
    rw [ihInner markedInner] at inside
    rw [openedEarlyTree, ← inside]
    simp [openedEarly, Bracketing.flatten, opens, noEnd]

theorem openedEarlyTree_le (tree : Bracketing Part) :
    openedEarlyTree tree ≤ (treeContents tree).length := by
  induction tree with
  | nil => exact Nat.le_refl _
  | single part rest ih => exact ih
  | group first inner last rest ihInner ihRest =>
    simp only [openedEarlyTree, treeContents, List.length_cons, List.length_append]
    omega

section BeyondAfter

variable (tree : Bracketing Part)

theorem length_beyondAfter (beyond : List (List UInt8)) :
    (beyondAfter beyond tree).length = beyond.length + (treeContents tree).length := by
  induction tree generalizing beyond with
  | nil => rfl
  | single part rest ih => exact ih beyond
  | group first inner last rest ihInner ihRest =>
    rw [beyondAfter, ihRest, List.length_cons, ihInner]
    simp only [treeContents, List.length_cons, List.length_append, List.length_tail,
      List.length_nil]
    omega

/-- A closed group collects the outermost contents after it. -/
theorem head_beyondAfter (head : List UInt8) (beyond : List (List UInt8)) :
    ∃ others, beyondAfter (head :: beyond) tree = (head ++ outermost tree) :: others := by
  induction tree generalizing head beyond with
  | nil => exact ⟨beyond, by rw [beyondAfter, outermost, List.append_nil]⟩
  | single part rest ih => exact ih head beyond
  | group first inner last rest ihInner ihRest =>
    obtain ⟨others, same⟩ := ihRest (head ++ consumed inner.flatten ++ last.2.dropLast)
      (beyondAfter (beyond ++ [[]]) inner)
    refine ⟨others, ?_⟩
    rw [beyondAfter, outermost]
    simpa using same

variable {tree}

theorem nil_of_consumed (spoken : Spoken tree.flatten) (none : consumed tree.flatten = []) :
    tree.flatten = [] := by
  cases parts : tree.flatten with
  | nil => rfl
  | cons part parts =>
    rw [parts] at spoken none
    have nonempty := language_ne_nil (spoken_cons.mp spoken).1
    rw [consumed_cons] at none
    exact absurd (List.append_eq_nil_iff.mp none).1 nonempty

/-- A group without content has no group inside it. -/
theorem inner_nil {inner : Bracketing Part} {last : Part} (spoken : Spoken inner.flatten)
    (none : consumed inner.flatten ++ last.2.dropLast = []) : inner = .nil := by
  have parts := nil_of_consumed spoken (List.append_eq_nil_iff.mp none).1
  cases inner with
  | nil => rfl
  | single part rest => cases parts
  | group first inner last rest => cases parts

theorem contents_nil_of_outermost (spoken : Spoken tree.flatten) (none : outermost tree = []) :
    ∀ content ∈ treeContents tree, content = [] := by
  induction tree with
  | nil => exact fun content member => absurd member List.not_mem_nil
  | single part rest ih => exact ih (spoken_cons.mp spoken).2 none
  | group first inner last rest ihInner ihRest =>
    obtain ⟨_, spoken⟩ := spoken_cons.mp spoken
    obtain ⟨spokenInner, spoken⟩ := spoken_append.mp spoken
    obtain ⟨content, outside⟩ := List.append_eq_nil_iff.mp none
    cases inner_nil spokenInner content
    intro other member
    rcases List.mem_cons.mp member with same | later
    · rw [same, content]
    · exact ihRest (spoken_cons.mp spoken).2 outside other later

/-- Groups without content change nothing but the number of groups. -/
theorem beyondAfter_of_nil (spoken : Spoken tree.flatten)
    (none : ∀ content ∈ treeContents tree, content = []) (beyond : List (List UInt8)) :
    beyondAfter beyond tree = beyond ++ treeContents tree := by
  induction tree generalizing beyond with
  | nil => rw [beyondAfter, treeContents, List.append_nil]
  | single part rest ih => exact ih (spoken_cons.mp spoken).2 none beyond
  | group first inner last rest ihInner ihRest =>
    obtain ⟨_, spoken⟩ := spoken_cons.mp spoken
    obtain ⟨spokenInner, spoken⟩ := spoken_append.mp spoken
    obtain ⟨content, others⟩ := List.forall_mem_cons.mp none
    cases inner_nil spokenInner content
    have later := ihRest (spoken_cons.mp spoken).2 others (beyond ++ [[]])
    have started : (beyond ++ [[]]).headD [] :: (beyond ++ [[]]).tail = beyond ++ [[]] := by
      cases beyond <;> rfl
    rw [beyondAfter, List.append_assoc, content, List.append_nil, treeContents, content]
    change beyondAfter ((beyond ++ [[]]).headD [] :: (beyond ++ [[]]).tail) rest = _
    rw [started, later]
    simp [treeContents]

/-- From a start without closed groups, the groups come out right exactly when
those opened after the first end mark have no content. -/
theorem beyondAfter_nil_iff (spoken : Spoken tree.flatten) :
    beyondAfter [] tree = treeContents tree ↔
      ∀ content ∈ (treeContents tree).drop (openedEarlyTree tree), content = [] := by
  induction tree with
  | nil => simp [beyondAfter, treeContents]
  | single part rest ih => exact ih (spoken_cons.mp spoken).2
  | group first inner last rest ihInner ihRest =>
    obtain ⟨_, spoken⟩ := spoken_cons.mp spoken
    obtain ⟨spokenInner, spoken⟩ := spoken_append.mp spoken
    have spokenRest := (spoken_cons.mp spoken).2
    rw [openedEarlyTree, treeContents, List.drop_succ_cons,
      List.drop_append_of_le_length (openedEarlyTree_le inner), List.forall_mem_append,
      ← ihInner spokenInner]
    generalize content : consumed inner.flatten ++ last.2.dropLast = closed
    have read : beyondAfter [] (.group first inner last rest) =
        beyondAfter (closed :: beyondAfter [] inner) rest := by
      rw [beyondAfter, ← content]
      rfl
    rw [read]
    constructor
    · intro right
      obtain ⟨others, collected⟩ := head_beyondAfter rest closed (beyondAfter [] inner)
      rw [collected] at right
      have outside : outermost rest = [] := by simpa using (List.cons.inj right).1
      have empty := contents_nil_of_outermost spokenRest outside
      rw [← collected, beyondAfter_of_nil spokenRest empty] at right
      exact ⟨List.append_cancel_right (List.cons.inj right).2, empty⟩
    · rintro ⟨right, empty⟩
      rw [beyondAfter_of_nil spokenRest empty, right]
      rfl

end BeyondAfter

theorem exists_parts {calls : List Call} {word : List UInt8}
    (member : word ∈ (calls.map fun call => call.combinator.language).prod) :
    ∃ parts : List Part, parts.map Prod.fst = calls ∧ Spoken parts ∧ word = consumed parts := by
  induction calls generalizing word with
  | nil =>
    refine ⟨[], rfl, fun part inside => absurd inside List.not_mem_nil, ?_⟩
    exact Set.mem_singleton_iff.mp member
  | cons call calls ih =>
    rw [List.map_cons, List.prod_cons] at member
    obtain ⟨first, spoken, second, later, rfl⟩ := Language.mem_mul.mp member
    obtain ⟨parts, same, others, rfl⟩ := ih later
    exact ⟨(call, first) :: parts, by rw [List.map_cons, same], spoken_cons.mpr ⟨spoken, others⟩,
      (consumed_cons (call, first) parts).symm⟩

/-- A full match has a division into parts. -/
theorem exists_reads {calls : List Call} {e : UInt8} {input : List UInt8}
    (full : (chainVerdict calls e input).type = .mrtFull) :
    ∃ parts rest, Reads calls e input parts rest := by
  obtain ⟨front, member, rest, same⟩ := (chainVerdict_full_iff ..).mp full
  obtain ⟨word, inside, last, final, rfl⟩ := Language.mem_mul.mp member
  obtain rfl : last = [e] := final
  obtain ⟨parts, calls, spoken, rfl⟩ := exists_parts inside
  exact ⟨parts, rest, calls, spoken, by rw [← same]; simp⟩

/-- The groups the matcher reports for an input that is read in parts. -/
theorem Reads.chainVerdict {calls : List Call} {e : UInt8} {input rest : List UInt8}
    {tree : Bracketing Part} (reads : Reads calls e input tree.flatten rest)
    (marked : PartsMarked tree) :
    chainVerdict calls e input =
      ⟨.mrtFull, (consumed tree.flatten ++ [e]) :: beyondAfter [] tree⟩ := by
  obtain ⟨same, spoken, split⟩ := reads
  have start : Captures.initial.Split [[]] [] := ⟨rfl, rfl⟩
  obtain ⟨after, divided, reading⟩ :=
    advances_tree tree marked spoken [⟨Segment.letter e, false, false⟩] start (e :: rest)
  have all : pieces calls e = piecesOf tree.flatten ++ [⟨Segment.letter e, false, false⟩] := by
    rw [pieces, ← same, List.flatMap_map]
    rfl
  have last := Reading.advances_stop ⟨Segment.letter e, false, false⟩ [] after rest
  have groups := (divided.append [e]).groups
  unfold Regex.chainVerdict
  rw [all, split, reading]
  refine (congrArg verdict last).trans ?_
  rw [Reading.advances_finished]
  change (⟨.mrtFull, (after.append [e]).groups⟩ : MatchResult) = _
  rw [groups]
  simp

/-- The check that begin and end marks are properly bracketed along a chain. -/
def properlyBracketed (calls : List Call) : Bool := balanced Call.begin Call.end 0 calls

/-- On every full match of a properly bracketed chain the result has the consumed
front and one string for each group; they are the contents of the groups exactly
when the groups opened after the first end mark have none. -/
theorem groups_correct_iff (calls : List Call) (bracketed : properlyBracketed calls = true)
    (e : UInt8) :
    ∃ dfa, compile calls e = some dfa ∧
      (dfa.edges.length ≤ 2 ^ 31 → ∀ input, dfa.matchInt input = dfa.match input) ∧
      ∀ input found, dfa.match input = some found → found.type = .mrtFull →
      (∃ parts rest, Reads calls e input parts rest) ∧
      ∀ parts rest, Reads calls e input parts rest →
        found.result.length = 1 + calls.countP (·.begin) ∧
        found.result.head? = some (consumed parts ++ [e]) ∧
        (found.result = (consumed parts ++ [e]) :: contents parts ↔
          ∀ content ∈ (contents parts).drop (openedEarly calls), content = []) := by
  obtain ⟨dfa, compiled, reports, runs⟩ := compile_match calls e
  refine ⟨dfa, compiled, fun narrow input => (runs narrow input).trans (reports input).symm,
    fun input found matched full => ?_⟩
  rw [reports] at matched
  cases matched
  refine ⟨exists_reads full, fun parts rest reads => ?_⟩
  have valid : balanced (fun part : Part => part.1.begin) (fun part : Part => part.1.end) 0 parts = true := by
    rw [balanced_map Call.begin Call.end Prod.fst, reads.calls]
    exact bracketed
  obtain ⟨tree, marked, rfl⟩ := exists_bracketing valid
  have right : contents tree.flatten = treeContents tree := by
    have flat := contents_flatten tree marked []
    rwa [List.append_nil, contents, List.append_nil] at flat
  have number : (treeContents tree).length = calls.countP (·.begin) := by
    rw [length_treeContents tree marked, ← reads.calls, List.countP_map]
    rfl
  rw [reads.chainVerdict marked, right, ← reads.calls, openedEarly_flatten tree marked, reads.calls]
  refine ⟨?_, rfl, ?_⟩
  · simp only [List.length_cons, length_beyondAfter, number, List.length_nil]
    omega
  · rw [List.cons.injEq, eq_self, true_and]
    exact beyondAfter_nil_iff reads.words

/-- A group in square brackets inside one in round brackets. -/
def nestedCalls : List Call :=
  [{ combinator := .stringShouldContain (bytes "(") (by decide), begin := true },
    { combinator := .stringShouldContain (bytes "[") (by decide), begin := true },
    { combinator := .zeroOrInfinityNot (byte ']'), «end» := true },
    { combinator := .zeroOrInfinityNot (byte ')'), «end» := true }]

theorem groups_correct_iff_nested :
    ∃ parts rest, Reads nestedCalls (byte '.') (bytes "([y]x).") parts rest ∧
      (chainVerdict nestedCalls (byte '.') (bytes "([y]x).")).result =
        (consumed parts ++ [byte '.']) :: contents parts ∧
      contents parts = [bytes "[y]x", bytes "y"] := by
  obtain ⟨dfa, compiled, -, correct⟩ := groups_correct_iff nestedCalls rfl (byte '.')
  obtain ⟨other, same, reports, -⟩ := compile_match nestedCalls (byte '.')
  obtain rfl : dfa = other := Option.some.inj (compiled.symm.trans same)
  have right := (correct _ _ (reports (bytes "([y]x).")) rfl).2
  let parts : List Part := nestedCalls.zip [bytes "(", bytes "[", bytes "y]", bytes "x)"]
  have reads : Reads nestedCalls (byte '.') (bytes "([y]x).") parts [] := by
    refine ⟨rfl, ?_, rfl⟩
    simp only [parts, nestedCalls, List.zip_cons_cons, List.zip_nil_right, List.forall_mem_cons]
    exact ⟨rfl, rfl, ⟨bytes "y", by decide, rfl⟩, ⟨bytes "x", by decide, rfl⟩,
      fun part inside => absurd inside List.not_mem_nil⟩
  exact ⟨parts, [], reads, (right parts [] reads).2.2.mpr (by decide), rfl⟩

/-- A group in round brackets and then one in square brackets. -/
def successiveCalls : List Call :=
  [{ combinator := .stringShouldContain (bytes "(") (by decide), begin := true },
    { combinator := .zeroOrInfinityNot (byte ')'), «end» := true },
    { combinator := .stringShouldContain (bytes "[") (by decide), begin := true },
    { combinator := .zeroOrInfinityNot (byte ']'), «end» := true }]

/-- Of two groups one after the other, the first takes the bytes of both. -/
theorem successive_groups_merged :
    ¬ ∀ (calls : List Call) (e : UInt8) (dfa : DFA) (input : List UInt8) (found : MatchResult)
      (parts : List Part) (rest : List UInt8), properlyBracketed calls = true →
      compile calls e = some dfa → dfa.match input = some found →
      dfa.matchInt input = some found → found.type = .mrtFull → Reads calls e input parts rest →
      found.result = (consumed parts ++ [e]) :: contents parts := by
  intro right
  obtain ⟨dfa, compiled, reports, runs⟩ := compile_match successiveCalls (byte '.')
  let parts : List Part := successiveCalls.zip [bytes "(", bytes "x)", bytes "[", bytes "y]"]
  have reads : Reads successiveCalls (byte '.') (bytes "(x)[y].") parts [] := by
    refine ⟨rfl, ?_, rfl⟩
    simp only [parts, successiveCalls, List.zip_cons_cons, List.zip_nil_right, List.forall_mem_cons]
    exact ⟨rfl, ⟨bytes "x", by decide, rfl⟩, rfl, ⟨bytes "y", by decide, rfl⟩,
      fun part inside => absurd inside List.not_mem_nil⟩
  have narrow : dfa.edges.length ≤ 2 ^ 31 := by
    rw [compile_length successiveCalls (byte '.') compiled]
    decide
  have result := right _ _ dfa _ _ parts [] rfl compiled (reports (bytes "(x)[y]."))
    (runs narrow (bytes "(x)[y].")) rfl reads
  have merged : (chainVerdict successiveCalls (byte '.') (bytes "(x)[y].")).result =
      [bytes "(x)[y].", bytes "xy", []] := rfl
  rw [merged] at result
  exact absurd result (by decide)

end MailruHttp.Regex
