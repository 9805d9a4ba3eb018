import Mathlib.Data.List.Induction

/-! Lexical paths: where the components of a path lead, with `..` resolved on
paper and no directory looked at. -/

namespace MailruHttp.Library

universe u

variable {Name : Type u}

/-- One component of a path: no move, one level up, or down to a name. -/
inductive Component (Name : Type u) where
  | here
  | up
  | name (name : Name)
  deriving DecidableEq, Repr

/-- A resolved path: levels up from its start, then names. Nothing is above the
root, where absolute paths start. -/
@[ext] structure Position (Name : Type u) where
  absolute : Bool
  ups : Nat
  names : List Name
  rooted : absolute = true → ups = 0

namespace Position

def start (absolute : Bool) : Position Name := ⟨absolute, 0, [], fun _ => rfl⟩

/-- Some levels up: names are undone first. -/
def climb (position : Position Name) (levels : Nat) : Position Name where
  absolute := position.absolute
  ups := if position.absolute then 0 else position.ups + (levels - position.names.length)
  names := position.names.take (position.names.length - levels)
  rooted absolute := by simp [absolute]

def descend (position : Position Name) (names : List Name) : Position Name :=
  { position with names := position.names ++ names }

def step (position : Position Name) : Component Name → Position Name
  | .here => position
  | .up => position.climb 1
  | .name name => position.descend [name]

def walk (position : Position Name) (components : List (Component Name)) : Position Name :=
  components.foldl step position

/-- Where components lead from nowhere in particular. -/
def relative (components : List (Component Name)) : Position Name := (start false).walk components

/-- A relative position, read from another one. -/
def follow (base move : Position Name) : Position Name := (base.climb move.ups).descend move.names

/-- The same start, and the names of the one continued by the other. -/
def Inside (outer inner : Position Name) : Prop :=
  outer.absolute = inner.absolute ∧ outer.ups = inner.ups ∧ outer.names <+: inner.names

@[simp] theorem descend_nil (position : Position Name) : position.descend [] = position := by
  simp [descend]

@[simp] theorem descend_descend (position : Position Name) (first second : List Name) :
    (position.descend first).descend second = position.descend (first ++ second) := by
  simp [descend]

@[simp] theorem climb_zero (position : Position Name) : position.climb 0 = position := by
  ext1
  · rfl
  · cases absolute : position.absolute with
    | true => simp [climb, absolute, position.rooted absolute]
    | false => simp [climb, absolute]
  · simp [climb]

theorem climb_climb (position : Position Name) (first second : Nat) :
    (position.climb first).climb second = position.climb (first + second) := by
  ext1
  · rfl
  · cases absolute : position.absolute with
    | true => simp [climb, absolute]
    | false =>
      simp only [climb, absolute, List.length_take]
      simp only [Bool.false_eq_true, ↓reduceIte]
      omega
  · simp only [climb, List.length_take, List.take_take]
    congr 1
    omega

theorem climb_descend (position : Position Name) (names : List Name) (name : Name) :
    (position.descend (names ++ [name])).climb 1 = position.descend names := by
  ext1
  · rfl
  · cases absolute : position.absolute with
    | true => simp [climb, descend, absolute, position.rooted absolute]
    | false =>
      simp only [climb, descend, absolute, List.length_append, List.length_singleton]
      simp only [Bool.false_eq_true, ↓reduceIte]
      omega
  · have whole : (position.names ++ (names ++ [name])).length - 1 =
        (position.names ++ names).length := by simp
    simp only [climb, descend, whole]
    rw [← List.append_assoc, List.take_left]

@[simp] theorem step_absolute (position : Position Name) (component : Component Name) :
    (position.step component).absolute = position.absolute := by
  cases component <;> rfl

theorem walk_absolute (position : Position Name) (components : List (Component Name)) :
    (position.walk components).absolute = position.absolute := by
  induction components generalizing position with
  | nil => rfl
  | cons component components ih => exact (ih _).trans (step_absolute position component)

theorem walk_append (position : Position Name) (first second : List (Component Name)) :
    position.walk (first ++ second) = (position.walk first).walk second := List.foldl_append

/-- A step of the move is a step from wherever it is read. -/
theorem follow_step (base : Position Name) {move : Position Name}
    (free : move.absolute = false) (component : Component Name) :
    base.follow (move.step component) = (base.follow move).step component := by
  cases component with
  | here => rfl
  | name name => exact (descend_descend _ _ _).symm
  | up =>
    rcases List.eq_nil_or_concat move.names with empty | ⟨names, name, last⟩
    · have climbs : (move.climb 1).ups = move.ups + 1 := by simp [climb, free, empty]
      have none : (move.climb 1).names = [] := by simp [climb, empty]
      simp only [step, follow, climbs, none, empty, descend_nil, climb_climb]
    · have climbs : (move.climb 1).ups = move.ups := by simp [climb, free, last]
      have rest : (move.climb 1).names = names := by simp [climb, last]
      simp only [step, follow, climbs, rest, last, List.concat_eq_append, climb_descend]

/-- Walking from a position is following the same walk from nowhere. -/
theorem walk_eq_follow (base : Position Name) (components : List (Component Name)) :
    base.walk components = base.follow (relative components) := by
  induction components using List.reverseRecOn with
  | nil =>
    have still : relative ([] : List (Component Name)) = start false := rfl
    simp [still, follow, walk, start]
  | append_singleton components component ih =>
    have free : (relative components).absolute = false := walk_absolute _ _
    have last : relative (components ++ [component]) = (relative components).step component :=
      walk_append _ _ _
    rw [walk_append, ih, last, follow_step base free]
    rfl

/-- The names of the base that the first move keeps and the second climbs over. -/
def between (base first second : Position Name) : List Name :=
  (base.names.take (base.names.length - first.ups)).drop (base.names.length - second.ups)

theorem names_follow_split (base first second : Position Name) :
    (base.follow first).names =
      base.names.take (min (base.names.length - first.ups) (base.names.length - second.ups)) ++
        (base.between first second ++ first.names) := by
  have split := List.take_append_drop (base.names.length - second.ups)
    (base.names.take (base.names.length - first.ups))
  rw [List.take_take, Nat.min_comm] at split
  rw [← List.append_assoc, between, split]
  rfl

/-- Two moves from one base lead inside each other when both leave the base
equally far and the names that follow the common part agree. -/
theorem inside_follow_iff (base outer inner : Position Name) :
    Inside (base.follow outer) (base.follow inner) ↔
      (base.absolute = true ∨
        outer.ups - base.names.length = inner.ups - base.names.length) ∧
      base.between outer inner ++ outer.names <+: base.between inner outer ++ inner.names := by
  have levels : (base.follow outer).ups = (base.follow inner).ups ↔
      (base.absolute = true ∨
        outer.ups - base.names.length = inner.ups - base.names.length) := by
    cases absolute : base.absolute with
    | true => simp [follow, climb, descend, absolute]
    | false => simp [follow, climb, descend, absolute]
  have names : (base.follow outer).names <+: (base.follow inner).names ↔
      base.between outer inner ++ outer.names <+: base.between inner outer ++ inner.names := by
    rw [names_follow_split base outer inner, names_follow_split base inner outer, Nat.min_comm,
      List.prefix_append_right_inj]
  rw [Inside, levels, names]
  exact and_iff_right rfl

/-- A move leads inside its base when it comes down by the names it climbed over. -/
theorem inside_base_iff (base move : Position Name) :
    Inside base (base.follow move) ↔
      (base.absolute = true ∨ move.ups ≤ base.names.length) ∧
      base.names.drop (base.names.length - move.ups) <+: move.names := by
  have still : base.follow (start false) = base := by simp [follow, start]
  have decided := inside_follow_iff base (start false) move
  have level : ((start false : Position Name).ups - base.names.length =
      move.ups - base.names.length) ↔ move.ups ≤ base.names.length := by
    simp only [start]
    omega
  have none : (base.names.take (base.names.length - move.ups)).drop base.names.length = [] :=
    List.drop_eq_nil_of_le (List.length_take_le' _ _)
  rw [still, level] at decided
  simpa [between, start, none] using decided

end Position

end MailruHttp.Library
