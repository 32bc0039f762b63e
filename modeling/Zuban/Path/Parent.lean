import Zuban.Path.Components

/-!
# The parent of a path

`Path::parent` takes one component from the back (`Components::next_back`) and returns the
bytes in front of it (`Components::as_path`), less the empty and `.` pieces that end them.
The backward scans read the body from its last byte, as `rposition` does: `reversed` is the
part not yet read, last byte first, and `piece` the bytes read since the last separator.
-/

namespace Zuban.Path

section Backwards

variable (sep : Char → Bool) (verbatim : Bool)

def scanBack : List Char → List Char → Option (Component × List Char)
  | [], piece => (parseSingleComponent verbatim piece).map (·, [])
  | c :: reversed, piece =>
      if sep c then
        match parseSingleComponent verbatim piece with
        | some component => some (component, reversed.reverse)
        | none => scanBack reversed []
      else scanBack reversed (c :: piece)

/-- The `State::Body` arm of `Components::next_back`: the last piece that reads as a
component, and the body in front of its separator. -/
def nextBackBody (body : List Char) : Option (Component × List Char) :=
  scanBack sep verbatim body.reverse []

def trimBack : List Char → List Char → List Char
  | [], piece => if (parseSingleComponent verbatim piece).isSome then piece else []
  | c :: reversed, piece =>
      if sep c then
        if (parseSingleComponent verbatim piece).isSome then reversed.reverse ++ c :: piece
        else trimBack reversed []
      else trimBack reversed (c :: piece)

/-- `Components::trim_right` on the body. -/
def trimRight (body : List Char) : List Char := trimBack sep verbatim body.reverse []

end Backwards

section Parent

variable (pf : Platform) (path : List Char)

/-- `Components::len_before_body` while `front` is still `State::Prefix`. -/
def lenBeforeBody : Nat :=
  prefixLen pf path + (if hasPhysicalRoot pf path then 1 else 0) +
    (if includeCurDir pf path then 1 else 0)

/-- The first `Components::next_back`: the component, the bytes still in front of it, and
whether `back` is still `State::Body`. -/
def nextBack : Option (Component × List Char × Bool) :=
  let front := path.take (lenBeforeBody pf path)
  match nextBackBody (isSep pf path) (prefixVerbatim pf path)
      (path.drop (lenBeforeBody pf path)) with
  | some (component, rest) => some (component, front ++ rest, true)
  | none =>
      if hasPhysicalRoot pf path then some (.rootDir, front.dropLast, false)
      else match pf.parsePrefix path with
        | some p =>
            some (if p.hasImplicitRoot && !p.isVerbatim then .rootDir else .prefixComponent p,
              front, false)
        | none => if includeCurDir pf path then some (.curDir, front.dropLast, false) else none

/-- `Components::as_path` after that call: while `back` is in the body, trailing empty and
`.` pieces go, never the bytes in front of the body. -/
def asPath (rest : List Char) (inBody : Bool) : List Char :=
  if inBody then
    rest.take (lenBeforeBody pf path) ++
      trimRight (isSep pf path) (prefixVerbatim pf path) (rest.drop (lenBeforeBody pf path))
  else rest

/-- `Path::parent`. -/
def parent : Option (List Char) :=
  match nextBack pf path with
  | some (.normal _, rest, inBody) | some (.curDir, rest, inBody)
  | some (.parentDir, rest, inBody) => some (asPath pf path rest inBody)
  | _ => none

end Parent

/-! ## Reading the body backwards -/

section Scans

variable {sep : Char → Bool} {verbatim : Bool}

theorem scanBack_sepFree {text : List Char} (free : ∀ c ∈ text, sep c = false)
    (reversed piece : List Char) :
    scanBack sep verbatim (text.reverse ++ reversed) piece =
      scanBack sep verbatim reversed (text ++ piece) := by
  induction text generalizing reversed piece with
  | nil => rfl
  | cons x text inductionHypothesis =>
      simp only [List.mem_cons, forall_eq_or_imp] at free
      simp [inductionHypothesis free.2, scanBack, free.1]

theorem scanBack_eq_none_iff {reversed piece : List Char} (free : ∀ c ∈ piece, sep c = false) :
    scanBack sep verbatim reversed piece = none ↔
      bodyComponents sep verbatim (reversed.reverse ++ piece) = [] := by
  induction reversed generalizing piece with
  | nil =>
      rw [List.reverse_nil, List.nil_append, bodyComponents_of_sepFree free]
      cases parsed : parseSingleComponent verbatim piece <;> simp [scanBack, parsed]
  | cons c reversed inductionHypothesis =>
      simp only [List.reverse_cons, List.append_assoc, List.singleton_append, scanBack]
      split
      · rename_i isSep
        have restNone := @inductionHypothesis [] (by simp)
        rw [List.append_nil] at restNone
        rw [bodyComponents_append_cons isSep, bodyComponents_of_sepFree free]
        cases parseSingleComponent verbatim piece <;> simp [restNone]
      · rename_i notSep
        exact inductionHypothesis (by simpa [notSep] using free)

theorem scanBack_eq_some {reversed piece rest : List Char} {c : Component}
    (scanned : scanBack sep verbatim reversed piece = some (c, rest)) :
    rest <+: reversed.reverse ++ piece ∧ rest.length < (reversed.reverse ++ piece).length := by
  induction reversed generalizing piece with
  | nil =>
      simp only [scanBack, Option.map_eq_some', Prod.mk.injEq] at scanned
      obtain ⟨_, parsed, -, rfl⟩ := scanned
      have : piece ≠ [] := by rintro rfl; simp [parseSingleComponent] at parsed
      simpa using List.length_pos.mpr this
  | cons x reversed inductionHypothesis =>
      simp only [List.reverse_cons, List.append_assoc, List.singleton_append]
      simp only [scanBack] at scanned
      split at scanned
      · split at scanned
        · obtain ⟨-, rfl⟩ := Prod.mk.inj (Option.some.inj scanned)
          exact ⟨List.prefix_append _ _, by simp⟩
        · obtain ⟨prefixed, shorter⟩ := inductionHypothesis scanned
          simp only [List.append_nil] at prefixed shorter
          refine ⟨prefixed.trans (List.prefix_append _ _), ?_⟩
          simp only [List.length_append, List.length_reverse, List.length_cons] at shorter ⊢
          omega
      · exact inductionHypothesis scanned

theorem trimBack_isPrefix (reversed piece : List Char) :
    trimBack sep verbatim reversed piece <+: reversed.reverse ++ piece := by
  induction reversed generalizing piece with
  | nil => simp only [trimBack]; split <;> simp
  | cons x reversed inductionHypothesis =>
      simp only [trimBack, List.reverse_cons, List.append_assoc, List.singleton_append]
      split
      · split
        · exact List.prefix_refl _
        · have front := inductionHypothesis []
          rw [List.append_nil] at front
          exact front.trans (List.prefix_append _ _)
      · exact inductionHypothesis _

/-- The component the backward scan takes is the last one the text holds: the bytes in front
of it hold the others. -/
theorem scanBack_components {reversed piece rest : List Char} {c : Component}
    (free : ∀ x ∈ piece, sep x = false)
    (scanned : scanBack sep verbatim reversed piece = some (c, rest)) :
    bodyComponents sep verbatim (reversed.reverse ++ piece) =
      bodyComponents sep verbatim rest ++ [c] := by
  induction reversed generalizing piece with
  | nil =>
      simp only [scanBack, Option.map_eq_some', Prod.mk.injEq] at scanned
      obtain ⟨_, parsed, rfl, rfl⟩ := scanned
      simp [bodyComponents_of_sepFree free, parsed]
  | cons x reversed inductionHypothesis =>
      simp only [List.reverse_cons, List.append_assoc, List.singleton_append]
      simp only [scanBack] at scanned
      split at scanned
      · rename_i isSep
        rw [bodyComponents_append_cons isSep, bodyComponents_of_sepFree free]
        cases parsed : parseSingleComponent verbatim piece with
        | some component =>
            rw [parsed] at scanned
            obtain ⟨rfl, rfl⟩ := Prod.mk.inj (Option.some.inj scanned)
            simp
        | none =>
            rw [parsed] at scanned
            simpa using inductionHypothesis (by simp) scanned
      · rename_i notSep
        exact inductionHypothesis (by simpa [notSep] using free) scanned

/-- The trimming of `trim_right` drops only pieces that are no components. -/
theorem trimBack_components {reversed piece : List Char} (free : ∀ x ∈ piece, sep x = false) :
    bodyComponents sep verbatim (trimBack sep verbatim reversed piece) =
      bodyComponents sep verbatim (reversed.reverse ++ piece) := by
  induction reversed generalizing piece with
  | nil =>
      rw [trimBack, List.reverse_nil, List.nil_append]
      cases parsed : parseSingleComponent verbatim piece <;>
        simp [parsed, bodyComponents_of_sepFree free]
  | cons x reversed inductionHypothesis =>
      simp only [trimBack, List.reverse_cons, List.append_assoc, List.singleton_append]
      split
      · rename_i isSep
        split
        · rfl
        · rename_i unparsed
          rw [inductionHypothesis (by simp), List.append_nil, bodyComponents_append_cons isSep,
            bodyComponents_of_sepFree free]
          cases parsed : parseSingleComponent verbatim piece <;> simp_all
      · rename_i notSep
        exact inductionHypothesis (by simpa [notSep] using free)

theorem nextBackBody_eq_none_iff {body : List Char} :
    nextBackBody sep verbatim body = none ↔ bodyComponents sep verbatim body = [] := by
  simpa using @scanBack_eq_none_iff sep verbatim body.reverse [] (by simp)

theorem nextBackBody_eq_some {body rest : List Char} {c : Component}
    (taken : nextBackBody sep verbatim body = some (c, rest)) :
    rest <+: body ∧ rest.length < body.length := by
  simpa using scanBack_eq_some taken

theorem nextBackBody_name {name : List Char} (free : ∀ c ∈ name, sep c = false)
    (normal : parseSingleComponent verbatim name = some (.normal name)) :
    nextBackBody sep verbatim name = some (.normal name, []) := by
  rw [nextBackBody, ← List.append_nil name.reverse, scanBack_sepFree free]
  simp [scanBack, normal]

/-- A body that ends in a name gives that name back first. -/
theorem nextBackBody_append_name {front name : List Char} {s : Char} (isSep : sep s = true)
    (free : ∀ c ∈ name, sep c = false)
    (normal : parseSingleComponent verbatim name = some (.normal name)) :
    nextBackBody sep verbatim (front ++ s :: name) = some (.normal name, front) := by
  rw [nextBackBody, List.reverse_append, List.reverse_cons, List.append_assoc,
    List.singleton_append, scanBack_sepFree free]
  simp [scanBack, isSep, normal]

theorem nextBackBody_components {body rest : List Char} {c : Component}
    (taken : nextBackBody sep verbatim body = some (c, rest)) :
    bodyComponents sep verbatim body = bodyComponents sep verbatim rest ++ [c] := by
  simpa using scanBack_components (by simp) taken

theorem trimRight_components (body : List Char) :
    bodyComponents sep verbatim (trimRight sep verbatim body) =
      bodyComponents sep verbatim body := by
  simpa using @trimBack_components sep verbatim body.reverse [] (by simp)

theorem trimRight_isPrefix (body : List Char) : trimRight sep verbatim body <+: body := by
  simpa using @trimBack_isPrefix sep verbatim body.reverse []

theorem trimBack_sepFree {text : List Char} (free : ∀ c ∈ text, sep c = false)
    (reversed piece : List Char) :
    trimBack sep verbatim (text.reverse ++ reversed) piece =
      trimBack sep verbatim reversed (text ++ piece) := by
  induction text generalizing reversed piece with
  | nil => rfl
  | cons x text inductionHypothesis =>
      simp only [List.mem_cons, forall_eq_or_imp] at free
      simp [inductionHypothesis free.2, trimBack, free.1]

theorem trimRight_piece {piece : List Char} (free : ∀ c ∈ piece, sep c = false)
    (parsed : (parseSingleComponent verbatim piece).isSome = true) :
    trimRight sep verbatim piece = piece := by
  rw [trimRight, ← List.append_nil piece.reverse, trimBack_sepFree free]
  simp [trimBack, parsed]

/-- A body whose last piece reads as a component is kept whole. -/
theorem trimRight_append_piece {front piece : List Char} {s : Char} (isSep : sep s = true)
    (free : ∀ c ∈ piece, sep c = false)
    (parsed : (parseSingleComponent verbatim piece).isSome = true) :
    trimRight sep verbatim (front ++ s :: piece) = front ++ s :: piece := by
  rw [trimRight, List.reverse_append, List.reverse_cons, List.append_assoc,
    List.singleton_append, trimBack_sepFree free]
  simp [trimBack, isSep, parsed]

/-- A text is its last piece, or ends with a separator and its last piece. -/
theorem lastPiece_split (sep : Char → Bool) (text : List Char) :
    (∀ c ∈ text, sep c = false) ∨
      ∃ front s piece, text = front ++ s :: piece ∧ sep s = true ∧
        ∀ c ∈ piece, sep c = false := by
  induction text with
  | nil => simp
  | cons x text inductionHypothesis =>
      rcases inductionHypothesis with free | ⟨front, s, piece, rfl, isSep, free⟩
      · by_cases xSep : sep x = true
        · exact .inr ⟨[], x, text, rfl, xSep, free⟩
        · exact .inl (by simpa [xSep] using free)
      · exact .inr ⟨x :: front, s, piece, rfl, isSep, free⟩

theorem bodyComponents_dot_cons {rest : List Char} (dot : sep '.' = false)
    (boundary : rest = [] ∨ ∃ b tail, rest = b :: tail ∧ sep b = true) :
    bodyComponents sep false ('.' :: rest) = bodyComponents sep false rest := by
  have single : bodyComponents sep false ['.'] = [] := by
    rw [bodyComponents_of_sepFree (by simpa using dot)]; rfl
  rcases boundary with rfl | ⟨b, tail, rfl, isSep⟩
  · simpa using single
  · rw [← List.singleton_append, bodyComponents_append_cons isSep,
      ← List.nil_append (b :: tail), bodyComponents_append_cons isSep, single]
    simp

theorem scanBack_parsed {reversed piece rest : List Char} {c : Component}
    (scanned : scanBack sep verbatim reversed piece = some (c, rest)) :
    ∃ text, parseSingleComponent verbatim text = some c := by
  induction reversed generalizing piece with
  | nil =>
      simp only [scanBack, Option.map_eq_some', Prod.mk.injEq] at scanned
      obtain ⟨_, parsed, rfl, -⟩ := scanned
      exact ⟨piece, parsed⟩
  | cons x reversed inductionHypothesis =>
      simp only [scanBack] at scanned
      split at scanned
      · split at scanned
        · obtain ⟨rfl, -⟩ := Prod.mk.inj (Option.some.inj scanned)
          exact ⟨piece, ‹_›⟩
        · exact inductionHypothesis scanned
      · exact inductionHypothesis scanned

theorem nextBackBody_not_rootPart {body rest : List Char} {c : Component}
    (taken : nextBackBody sep verbatim body = some (c, rest)) : c.isRootPart = false := by
  obtain ⟨text, parsed⟩ := scanBack_parsed taken
  exact parseSingleComponent_not_rootPart parsed

end Scans

/-! ## `parent` against the components -/

section ParentLemmas
variable (pf : Platform) (path : List Char)

theorem isSep_dot : isSep pf path '.' = false := by
  unfold isSep; split <;> cases pf <;> decide

theorem includeCurDir_split (cur : includeCurDir pf path = true) :
    hasRoot pf path = false ∧ ∃ rest, path.drop (prefixLen pf path) = '.' :: rest ∧
      (rest = [] ∨ ∃ b tail, rest = b :: tail ∧ isSep pf path b = true) := by
  simp only [includeCurDir, Bool.and_eq_true, Bool.not_eq_true'] at cur
  refine ⟨cur.1, ?_⟩
  have shape := cur.2
  split at shape
  · rename_i dot; exact ⟨[], dot, .inl rfl⟩
  · rename_i b tail dot; exact ⟨b :: tail, dot, .inr ⟨b, tail, rfl, shape⟩⟩
  · cases shape

theorem prefixVerbatim_of_noRoot (noRoot : hasRoot pf path = false) :
    prefixVerbatim pf path = false := by
  simp only [hasRoot, Bool.or_eq_false_iff] at noRoot
  cases prefixed : pf.parsePrefix path with
  | none => simp [prefixVerbatim, prefixed]
  | some p =>
      cases p <;>
        simp_all [prefixVerbatim, Prefix.hasImplicitRoot, Prefix.isDrive, Prefix.isVerbatim]

/-- The body the front iterator reads and the body `next_back` reads give the same
components: they differ only by a leading `.` after a bare drive, which is skipped anyway. -/
theorem components_eq_back :
    components pf path =
      ((pf.parsePrefix path).map .prefixComponent).toList ++ (startDir pf path).1.toList ++
        bodyComponents (isSep pf path) (prefixVerbatim pf path)
          (path.drop (lenBeforeBody pf path)) := by
  rw [components]
  congr 1
  unfold lenBeforeBody startDir
  by_cases phys : hasPhysicalRoot pf path
  · have : includeCurDir pf path = false := by simp [includeCurDir, hasRoot, phys]
    simp [phys, this]
  · cases prefixed : pf.parsePrefix path with
    | none => by_cases cur : includeCurDir pf path <;> simp [phys, prefixed, cur]
    | some p =>
        by_cases cur : includeCurDir pf path
        · obtain ⟨noRoot, rest, dot, boundary⟩ := includeCurDir_split pf path cur
          simp only [phys, prefixed, cur, if_false, if_true, Nat.add_zero, Bool.false_eq_true]
          rw [← List.drop_drop, dot, prefixVerbatim_of_noRoot pf path noRoot,
            bodyComponents_dot_cons (isSep_dot pf path) boundary]
          rfl
        · simp [phys, prefixed, cur]


theorem startDir_fst :
    (startDir pf path).1 = none ∨ (startDir pf path).1 = some .rootDir ∨
      (startDir pf path).1 = some .curDir := by
  unfold startDir
  split
  · simp
  · split
    · split <;> simp
    · split <;> simp

theorem isRoot_iff : isRoot pf path = true ↔ (startDir pf path).1 ≠ some .curDir ∧
    bodyComponents (isSep pf path) (prefixVerbatim pf path)
      (path.drop (lenBeforeBody pf path)) = [] := by
  rw [isRoot, components_eq_back]
  simp only [List.all_append, Bool.and_eq_true, List.all_eq_true]
  have prefixPart : ∀ c ∈ ((pf.parsePrefix path).map Component.prefixComponent).toList,
      c.isRootPart = true := by
    cases pf.parsePrefix path <;> simp [Component.isRootPart]
  have bodyPart : ∀ body : List Component, (∀ c ∈ body, c.isRootPart = false) →
      ((∀ c ∈ body, c.isRootPart = true) ↔ body = []) := by
    intro body notRoot
    refine ⟨fun allRoot => List.eq_nil_iff_forall_not_mem.mpr fun c member => ?_, by simp_all⟩
    simpa [notRoot c member] using allRoot c member
  rw [bodyPart _ (fun c member => mem_bodyComponents_not_rootPart member)]
  rcases startDir_fst pf path with start | start | start <;>
    simp [start, prefixPart, Component.isRootPart]

/-- When the body still holds a component, `parent` cuts it and the empty and `.` pieces
before it. -/
theorem parent_of_nextBackBody {c : Component} {rest : List Char}
    (taken : nextBackBody (isSep pf path) (prefixVerbatim pf path)
      (path.drop (lenBeforeBody pf path)) = some (c, rest)) :
    parent pf path = some (path.take (lenBeforeBody pf path) ++
      trimRight (isSep pf path) (prefixVerbatim pf path) rest) := by
  have nonempty : path.drop (lenBeforeBody pf path) ≠ [] := by
    rintro empty; rw [empty] at taken; simp [nextBackBody, scanBack, parseSingleComponent] at taken
  have front : (path.take (lenBeforeBody pf path)).length = lenBeforeBody pf path := by
    simp only [ne_eq, List.drop_eq_nil_iff, not_le] at nonempty
    simp; omega
  have notRoot := nextBackBody_not_rootPart taken
  unfold parent nextBack
  simp only [taken]
  cases c <;> simp_all [Component.isRootPart, asPath, List.take_left', List.drop_left']

theorem parent_eq_none_iff : parent pf path = none ↔ isRoot pf path = true := by
  rw [isRoot_iff, ← nextBackBody_eq_none_iff]
  cases taken : nextBackBody (isSep pf path) (prefixVerbatim pf path)
      (path.drop (lenBeforeBody pf path)) with
  | some val => simp [parent_of_nextBackBody pf path taken]
  | none =>
      unfold parent nextBack
      simp only [taken, and_true]
      unfold startDir
      by_cases phys : hasPhysicalRoot pf path
      · simp [phys]
      · cases prefixed : pf.parsePrefix path with
        | some p =>
            by_cases implicit : (p.hasImplicitRoot && !p.isVerbatim) = true <;>
              simp [phys, prefixed, implicit]
        | none => by_cases cur : includeCurDir pf path <;> simp [phys, prefixed, cur]


/-- The parent is a proper prefix of the path: walking up always ends. -/
theorem parent_isPrefix {q : List Char} (parented : parent pf path = some q) :
    q <+: path ∧ q.length < path.length := by
  cases taken : nextBackBody (isSep pf path) (prefixVerbatim pf path)
      (path.drop (lenBeforeBody pf path)) with
  | some val =>
      obtain ⟨c, rest⟩ := val
      rw [parent_of_nextBackBody pf path taken, Option.some.injEq] at parented
      subst parented
      obtain ⟨restPrefix, restShorter⟩ := nextBackBody_eq_some taken
      have trimmed :=
        (@trimRight_isPrefix (isSep pf path) (prefixVerbatim pf path) rest).trans restPrefix
      have whole := List.take_append_drop (lenBeforeBody pf path) path
      refine ⟨?_, ?_⟩
      · have := (List.prefix_append_right_inj (path.take (lenBeforeBody pf path))).mpr trimmed
        rwa [whole] at this
      · have lengths := congrArg List.length whole
        have := (@trimRight_isPrefix (isSep pf path) (prefixVerbatim pf path) rest).length_le
        simp only [List.length_append] at lengths ⊢
        omega
  | none =>
      unfold parent nextBack at parented
      simp only [taken] at parented
      by_cases phys : hasPhysicalRoot pf path
      · simp [phys] at parented
      · cases prefixed : pf.parsePrefix path with
        | some p =>
            by_cases implicit : (p.hasImplicitRoot && !p.isVerbatim) = true <;>
              simp [phys, prefixed, implicit] at parented
        | none =>
            by_cases cur : includeCurDir pf path
            · simp only [phys, prefixed, cur, if_true, Bool.false_eq_true, if_false,
                Option.some.injEq, asPath] at parented
              subst parented
              obtain ⟨-, rest, dot, -⟩ := includeCurDir_split pf path cur
              have nonempty : 0 < path.length := by
                have := congrArg List.length dot
                simp only [List.length_drop, List.length_cons] at this
                omega
              have front : (path.take (lenBeforeBody pf path)).dropLast = [] := by
                have one : lenBeforeBody pf path = 1 := by
                  simp [lenBeforeBody, prefixLen, prefixed, phys, cur, startDir]
                rw [one]
                cases path <;> rfl
              rw [front]
              exact ⟨⟨path, rfl⟩, nonempty⟩
            · simp [phys, prefixed, cur] at parented

end ParentLemmas

end Zuban.Path
