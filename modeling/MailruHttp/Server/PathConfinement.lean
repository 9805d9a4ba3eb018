import Mathlib.Data.List.DropRight
import MailruHttp.Library.LexicalPath
import MailruHttp.Server.OpenedPath

/-! Which requests stay inside the served directory. The directory loses its last
slash and the URI is glued to what is left, with no look at `..` in between. -/

namespace MailruHttp.Server

open Library Cmd

/-- Empty components and `.` do not move, `..` moves up. -/
def component (name : List UInt8) : Component (List UInt8) :=
  if name = [] ∨ name = bytes "." then .here
  else if name = bytes ".." then .up
  else .name name

def components (path : List UInt8) : List (Component (List UInt8)) :=
  (path.splitOn (byte '/')).map component

def isAbsolute (path : List UInt8) : Bool := path.head? == some (byte '/')

/-- The lexical meaning of a path. -/
def lexical (path : List UInt8) : Position (List UInt8) :=
  (Position.start (isAbsolute path)).walk (components path)

/-- Nothing, or a path that ends with a slash. -/
def Closed (path : List UInt8) : Prop := path = [] ∨ ∃ front, path = front ++ [byte '/']

/-- Behind a slash the components of a path start afresh. -/
theorem walk_components_append (position : Position (List UInt8)) {front : List UInt8}
    (closed : Closed front) (rest : List UInt8) :
    position.walk (components (front ++ rest)) =
      (position.walk (components front)).walk (components rest) := by
  rcases closed with rfl | ⟨init, rfl⟩
  · rfl
  · have split (tail : List UInt8) :
        components (init ++ [byte '/'] ++ tail) = components init ++ components tail := by
      rw [List.append_assoc, List.singleton_append, components, List.splitOn_append_cons_self,
        List.map_append]
      rfl
    have closing := split []
    rw [List.append_nil] at closing
    rw [split, closing, Position.walk_append, Position.walk_append]
    rfl

/-- The folder up to and with its last slash. -/
def parentOf (folder : List UInt8) : List UInt8 := folder.rdropWhile (· != byte '/')

theorem parentOf_closed (folder : List UInt8) : Closed (parentOf folder) := by
  by_cases empty : parentOf folder = []
  · exact .inl empty
  · refine .inr ⟨(parentOf folder).dropLast, ?_⟩
    have slash : (parentOf folder).getLast empty = byte '/' := by
      have last := List.rdropWhile_last_not (· != byte '/') folder empty
      rw [bne_iff_ne, not_not] at last
      exact last
    rw [← slash, List.dropLast_append_getLast]

theorem folderOf_leads {directory : List UInt8} (named : directory ≠ []) :
    folderOf directory <+: directory := by
  have positive : directory.length ≠ 0 := by simpa using named
  unfold folderOf
  simp only [positive, ↓reduceIte]
  split
  · exact List.take_prefix _ _
  · exact List.prefix_refl _

theorem parentOf_leads (directory : List UInt8) : parentOf (folderOf directory) <+: directory := by
  by_cases named : directory = []
  · rw [named]
    exact List.prefix_refl []
  · exact (List.rdropWhile_prefix _ _).trans (folderOf_leads named)

/-- Where the parent of the folder leads. -/
def parentPosition (directory : List UInt8) : Position (List UInt8) :=
  (Position.start (isAbsolute directory)).walk (components (parentOf (folderOf directory)))

/-- What the directory names below that parent. -/
def namedBelow (directory : List UInt8) : Position (List UInt8) :=
  .relative (components (directory.drop (parentOf (folderOf directory)).length))

/-- What a request asks for below that parent; the last piece of the folder is
glued to the path. -/
def askedBelow (directory path : List UInt8) : Position (List UInt8) :=
  .relative (components ((folderOf directory).drop (parentOf (folderOf directory)).length ++ path))

/-- The request climbs out of the parent exactly as far as the directory does, and
comes down by the names it climbed over and then by those of the directory. -/
def Confined (directory path : List UInt8) : Prop :=
  let parent := parentPosition directory
  let named := namedBelow directory
  let asked := askedBelow directory path
  isAbsolute directory = isAbsolute (folderOf directory ++ path) ∧
  (parent.absolute = true ∨ named.ups - parent.names.length = asked.ups - parent.names.length) ∧
  parent.between named asked ++ named.names <+: parent.between asked named ++ asked.names

instance (directory path : List UInt8) : Decidable (Confined directory path) :=
  inferInstanceAs (Decidable (_ ∧ _ ∧ _))

theorem lexical_absolute (path : List UInt8) : (lexical path).absolute = isAbsolute path :=
  Position.walk_absolute _ _

theorem lexical_directory (directory : List UInt8) :
    lexical directory = (parentPosition directory).follow (namedBelow directory) := by
  have split := List.prefix_iff_eq_append.mp (parentOf_leads directory)
  rw [namedBelow, ← Position.walk_eq_follow, parentPosition,
    ← walk_components_append _ (parentOf_closed _), split, lexical]

theorem lexical_request {directory path : List UInt8}
    (same : isAbsolute directory = isAbsolute (folderOf directory ++ path)) :
    lexical (folderOf directory ++ path) =
      (parentPosition directory).follow (askedBelow directory path) := by
  have split : parentOf (folderOf directory) ++
      (folderOf directory).drop (parentOf (folderOf directory)).length = folderOf directory :=
    List.prefix_iff_eq_append.mp (List.rdropWhile_prefix _ _)
  rw [askedBelow, ← Position.walk_eq_follow, parentPosition,
    ← walk_components_append _ (parentOf_closed _), ← List.append_assoc, split, same, lexical]

theorem inside_iff_confined (directory path : List UInt8) :
    Position.Inside (lexical directory) (lexical (folderOf directory ++ path)) ↔
      Confined directory path := by
  unfold Confined
  by_cases same : isAbsolute directory = isAbsolute (folderOf directory ++ path)
  · rw [lexical_directory, lexical_request same, Position.inside_follow_iff]
    exact (and_iff_right same).symm
  · constructor
    · intro inside
      have started := inside.1
      rw [lexical_absolute, lexical_absolute] at started
      exact absurd started same
    · intro confined
      exact absurd confined.1 same

/-- A directory without a backslash at its end is closed by the slash of a path. -/
theorem lexical_folder_slash {directory : List UInt8} (named : directory ≠ [])
    (plain : directory.getLast? ≠ some (byte '\\')) (path : List UInt8) :
    lexical (folderOf directory ++ byte '/' :: path) =
      (lexical directory).follow (.relative (components path)) := by
  have positive : directory.length ≠ 0 := by simpa using named
  have closing (front : List UInt8) (position : Position (List UInt8)) :
      position.walk (components (front ++ [byte '/'])) = position.walk (components front) := by
    rw [components, List.splitOn_append_cons_self, List.map_append, Position.walk_append]
    rfl
  have below (front : List UInt8) (start : Position (List UInt8)) :
      start.walk (components (front ++ byte '/' :: path)) =
        (start.walk (components front)).walk (components path) := by
    rw [← closing front, ← walk_components_append _ (.inr ⟨front, rfl⟩), List.append_assoc]
    rfl
  rw [← Position.walk_eq_follow, lexical, below, lexical]
  by_cases slash : directory.getLast? = some (byte '/')
  · obtain ⟨front, rfl⟩ := List.getLast?_eq_some_iff.mp slash
    have folder : folderOf (front ++ [byte '/']) = front := by simp [folderOf]
    have start : isAbsolute (front ++ byte '/' :: path) = isAbsolute (front ++ [byte '/']) := by
      cases front <;> rfl
    rw [folder, start, closing]
  · have folder : folderOf directory = directory := by simp [folderOf, positive, slash, plain]
    have start : isAbsolute (directory ++ byte '/' :: path) = isAbsolute directory := by
      cases directory with
      | nil => exact absurd rfl named
      | cons => rfl
    rw [folder, start]

/-- Of a directory without a backslash at its end, a path from a slash on can only
escape by climbing: as far as it climbs over names of the directory, it has to
come down by them again. -/
theorem confined_slash_iff {directory : List UInt8} (named : directory ≠ [])
    (plain : directory.getLast? ≠ some (byte '\\')) (path : List UInt8) :
    Confined directory (byte '/' :: path) ↔
      let asked := Position.relative (components path)
      let names := (lexical directory).names
      (isAbsolute directory = true ∨ asked.ups ≤ names.length) ∧
        names.drop (names.length - asked.ups) <+: asked.names := by
  rw [← inside_iff_confined, lexical_folder_slash named plain, Position.inside_base_iff,
    lexical_absolute]

/-- The path a URI is served from, below the directory. -/
def servedPath (uri : List UInt8) : List UInt8 :=
  cString (if baseUriOf uri = bytes "/" then bytes "/index.html" else baseUriOf uri)

/-- The bytes name a path that stays inside: through the URI of their request, in
its short form first, and through the empty path when they are no request and can
never become one. -/
def StaysInside (directory request : List UInt8) : Prop :=
  (∀ uri, ShortRequest request uri → Confined directory (servedPath uri)) ∧
  ((¬ ∃ uri, ShortRequest request uri) → ∀ uri, LongRequest request uri →
    Confined directory (servedPath uri)) ∧
  (¬ CanComplete request → Confined directory [])

/-- What the parse of some bytes is served from, if it is served at all. -/
theorem staysInside_iff (parsed : Parsed request rps) (directory : List UInt8) :
    StaysInside directory request ↔
      (rps.complete = true → Confined directory (cString (indexed rps).baseUri)) := by
  have served (uri : List UInt8) : cString (indexed (accepted uri)).baseUri = servedPath uri := by
    unfold indexed servedPath
    split <;> simp_all [accepted]
  have complete (uri : List UInt8) : (accepted uri).complete = true := rfl
  have short_complete (uri : List UInt8) (short : ShortRequest request uri) : CanComplete request :=
    canComplete_of_request (.inl short)
  have long_complete (uri : List UInt8) (long : LongRequest request uri) : CanComplete request :=
    canComplete_of_request (.inr long)
  cases parsed with
  | short found =>
    rw [served]
    constructor
    · intro stays _
      exact stays.1 _ found
    · intro confined
      refine ⟨?_, fun none => absurd ⟨_, found⟩ none, fun dead => absurd (short_complete _ found) dead⟩
      intro uri other
      have same := Parsed.unique (.short found) (.short other)
      rw [← served, ← same, served]
      exact confined rfl
  | long none found =>
    rw [served]
    constructor
    · intro stays _
      exact stays.2.1 none _ found
    · intro confined
      refine ⟨fun uri short => absurd ⟨uri, short⟩ none, ?_, fun dead => absurd (long_complete _ found) dead⟩
      intro _ uri other
      have same := Parsed.unique (.long none found) (.long none other)
      rw [← served, ← same, served]
      exact confined rfl
  | waiting none possible =>
    constructor
    · intro _ impossible
      cases impossible
    · intro _
      exact ⟨fun uri short => absurd ⟨uri, .inl short⟩ none,
        fun _ uri long => absurd ⟨uri, .inr long⟩ none, fun dead => absurd possible dead⟩
  | dead impossible =>
    constructor
    · intro stays _
      exact stays.2.2 impossible
    · intro confined
      exact ⟨fun uri short => absurd (short_complete uri short) impossible,
        fun _ uri long => absurd (long_complete uri long) impossible, fun _ => confined rfl⟩

theorem cString_append {front : List UInt8} (free : 0 ∉ front) (rest : List UInt8) :
    cString (front ++ rest) = front ++ cString rest := by
  apply List.takeWhile_append_of_pos
  intro a member
  have nonzero : a ≠ 0 := fun same => free (same ▸ member)
  simpa using nonzero

theorem folderOf_free (opts : Options) : 0 ∉ folderOf opts.directory := by
  by_cases named : opts.directory = []
  · rw [named]
    decide
  · intro member
    exact opts.directory_cString ((folderOf_leads named).subset member)

/-- On every run, all paths the server opens lie inside its directory exactly when
the bytes received name one that stays inside. -/
theorem served_inside_iff (opts : Options) (calls : List ReadCall) :
    (∀ path ∈ opened (onReads opts (some onAccept) calls).effects,
      Position.Inside (lexical opts.directory) (lexical path)) ↔
      StaysInside opts.directory (received calls) := by
  obtain ⟨rps, success, paths⟩ := opened_onReads opts calls
  obtain ⟨other, successHere, parsed⟩ := parseRequest_parsed { request := received calls }
  cases Option.some.inj (success.symm.trans successHere)
  rw [paths, staysInside_iff parsed]
  cases complete : rps.complete with
  | false => simp
  | true =>
    have path : requestPath opts rps =
        folderOf opts.directory ++ cString (indexed rps).baseUri :=
      cString_append (folderOf_free opts) _
    simp only [↓reduceIte, List.mem_singleton, forall_eq, path, inside_iff_confined, true_imp_iff]

/-- A request that climbs over the directory reaches a file outside. -/
theorem dotdot_escapes :
    opened (onReads {} (some onAccept)
      [.data greeting 0 (bytes "GET /../etc/passwd HTTP/1.0\r\n") (by decide)]).effects =
        [bytes "./../etc/passwd"] ∧
    ¬ Position.Inside (lexical ({} : Options).directory) (lexical (bytes "./../etc/passwd")) := by
  refine ⟨rfl, ?_⟩
  intro inside
  have level := inside.2.1
  revert level
  decide

end MailruHttp.Server
