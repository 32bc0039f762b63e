import Zuban.Path.Prefix

/-!
# Components of a path

`Path::components` as the iterator yields it from the front: the prefix, then a root
directory or a leading `.`, then the body cut at separators, with empty and `.` pieces
skipped. `has_root` and `is_absolute` read the same parse. `cfg!(target_os = "windows")`
decides the separators (`/` on Unix; `/` and `\` on Windows, `\` alone after a verbatim
prefix) and whether prefixes are parsed at all.
-/

namespace Zuban.Path

inductive Platform where
  | unix
  | windows
  deriving DecidableEq, Repr

namespace Platform

def isSepByte : Platform → Char → Bool
  | unix, c => c = '/'
  | windows, c => Windows.isSepByte c

/-- `std::path::MAIN_SEPARATOR`. -/
def mainSeparator : Platform → Char
  | unix => '/'
  | windows => '\\'

def parsePrefix : Platform → List Char → Option Prefix
  | unix, _ => none
  | windows, path => Windows.parsePrefix path

theorem isSepByte_mainSeparator (pf : Platform) : pf.isSepByte pf.mainSeparator = true := by
  cases pf <;> decide

end Platform

/-- `std::path::Component`. A prefix keeps only its parsed form: the `PartialEq` of
`PrefixComponent` compares nothing else. -/
inductive Component where
  | prefixComponent (parsed : Prefix)
  | rootDir
  | curDir
  | parentDir
  | normal (name : List Char)
  deriving DecidableEq, Repr

section Components

variable (pf : Platform) (path : List Char)

/-- `Components::prefix_len`. -/
def prefixLen : Nat := ((pf.parsePrefix path).map Prefix.len).getD 0

def prefixVerbatim : Bool := ((pf.parsePrefix path).map Prefix.isVerbatim).getD false

/-- `Components::is_sep_byte`. -/
def isSep (c : Char) : Bool :=
  if prefixVerbatim pf path then Windows.isVerbatimSep c else pf.isSepByte c

/-- `has_physical_root`. -/
def hasPhysicalRoot : Bool :=
  match path.drop (prefixLen pf path) with
  | c :: _ => pf.isSepByte c
  | [] => false

/-- `Path::has_root`. -/
def hasRoot : Bool :=
  hasPhysicalRoot pf path || ((pf.parsePrefix path).map Prefix.hasImplicitRoot).getD false

/-- `Path::is_absolute`: on Windows a root is not enough, a prefix is needed too. -/
def isAbsolute : Bool :=
  hasRoot pf path && (pf = .unix || (pf.parsePrefix path).isSome)

/-- `Components::include_cur_dir`. -/
def includeCurDir : Bool :=
  !hasRoot pf path &&
    match path.drop (prefixLen pf path) with
    | ['.'] => true
    | '.' :: b :: _ => isSep pf path b
    | _ => false

/-- The `State::StartDir` arm of `Components::next`: what it yields, and how many bytes it
takes. -/
def startDir : Option Component × Nat :=
  if hasPhysicalRoot pf path then (some .rootDir, 1)
  else match pf.parsePrefix path with
    | some p => (if p.hasImplicitRoot && !p.isVerbatim then some .rootDir else none, 0)
    | none => if includeCurDir pf path then (some .curDir, 1) else (none, 0)

end Components

/-- `Components::parse_single_component`. -/
def parseSingleComponent (verbatim : Bool) : List Char → Option Component
  | [] => none
  | ['.'] => if verbatim then some .curDir else none
  | ['.', '.'] => some .parentDir
  | name => some (.normal name)

/-- The `State::Body` arm of `Components::next`, run to the end: the pieces between
separators, each read by `parse_single_component`. -/
def bodyComponents (sep : Char → Bool) (verbatim : Bool) (body : List Char) :
    List Component :=
  (body.splitOnP sep).filterMap (parseSingleComponent verbatim)

/-- `Path::components`, collected. -/
def components (pf : Platform) (path : List Char) : List Component :=
  ((pf.parsePrefix path).map .prefixComponent).toList ++ (startDir pf path).1.toList ++
    bodyComponents (isSep pf path) (prefixVerbatim pf path)
      (path.drop (prefixLen pf path + (startDir pf path).2))

def Component.isRootPart : Component → Bool
  | .prefixComponent _ | .rootDir => true
  | _ => false

def Component.normalName? : Component → Option (List Char)
  | .normal name => some name
  | _ => none

/-- A root: nothing in the path but a prefix and a root directory. -/
def isRoot (pf : Platform) (path : List Char) : Bool :=
  (components pf path).all Component.isRootPart

/-! ## The body -/

theorem splitOnP_append_cons {α : Type} {p : α → Bool} {s : α} (isSep : p s = true)
    (before after : List α) :
    (before ++ s :: after).splitOnP p = before.splitOnP p ++ after.splitOnP p := by
  induction before with
  | nil => simp [isSep]
  | cons x before inductionHypothesis =>
      rw [List.cons_append, List.splitOnP_cons, List.splitOnP_cons, inductionHypothesis]
      split
      · rfl
      · obtain ⟨piece, pieces, split⟩ :=
          List.exists_cons_of_ne_nil (List.splitOnP_ne_nil p before)
        rw [split]
        rfl

variable {sep : Char → Bool} {verbatim : Bool}

@[simp] theorem bodyComponents_nil : bodyComponents sep verbatim [] = [] := by
  simp [bodyComponents, parseSingleComponent]

theorem bodyComponents_append_cons {s : Char} (isSep : sep s = true) (before after : List Char) :
    bodyComponents sep verbatim (before ++ s :: after) =
      bodyComponents sep verbatim before ++ bodyComponents sep verbatim after := by
  simp [bodyComponents, splitOnP_append_cons isSep]

theorem bodyComponents_of_sepFree {piece : List Char} (free : ∀ c ∈ piece, sep c = false) :
    bodyComponents sep verbatim piece = (parseSingleComponent verbatim piece).toList := by
  rw [bodyComponents, List.splitOnP_eq_single _ _ (by simpa using free)]
  cases parsed : parseSingleComponent verbatim piece <;> simp [parsed]

theorem parseSingleComponent_normal {piece name : List Char}
    (parsed : parseSingleComponent verbatim piece = some (.normal name)) :
    piece = name ∧ name ≠ [] ∧ name ≠ ['.'] ∧ name ≠ ['.', '.'] := by
  unfold parseSingleComponent at parsed
  split at parsed
  all_goals first | (split at parsed <;> simp at parsed) | simp at parsed
  rename_i notEmpty notDot notDots
  subst parsed
  exact ⟨rfl, fun h => notEmpty h, fun h => notDot h, fun h => notDots h⟩

theorem parseSingleComponent_of_normal {name : List Char} (notEmpty : name ≠ [])
    (notDot : name ≠ ['.']) (notDots : name ≠ ['.', '.']) :
    parseSingleComponent verbatim name = some (.normal name) := by
  unfold parseSingleComponent
  split <;> simp_all

theorem parseSingleComponent_not_rootPart {piece : List Char} {c : Component}
    (parsed : parseSingleComponent verbatim piece = some c) : c.isRootPart = false := by
  unfold parseSingleComponent at parsed
  split at parsed
  all_goals first | (split at parsed <;> simp at parsed) | simp at parsed
  all_goals subst parsed; rfl

theorem mem_bodyComponents_not_rootPart {body : List Char} {c : Component}
    (member : c ∈ bodyComponents sep verbatim body) : c.isRootPart = false := by
  obtain ⟨piece, -, parsed⟩ := List.mem_filterMap.mp member
  exact parseSingleComponent_not_rootPart parsed

end Zuban.Path
