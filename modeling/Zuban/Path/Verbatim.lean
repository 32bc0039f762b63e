import Zuban.Path.Joined

/-!
# Joining onto a verbatim path

After a verbatim prefix `PathBuf::push` does not write the pushed path out as it is: it runs
the components of both paths through a stack, where `.` is skipped, `..` pops a name and a
root cuts back to the prefix, and then writes the stack out again with `\` between the
components. Read back by `Path::components`, the text it writes is that stack: the prefix,
the root, and the names and dots in between, as long as the base has its root written out and
is no UNC share without a share name, which the first pushed name would become.
-/

namespace Zuban.Path

namespace Windows

/-! ## What follows a verbatim prefix -/

theorem parsePrefix_eq_verbatimUNC {path server share : List Char}
    (parsed : parsePrefix path = some (.verbatimUNC server share)) :
    viewHas path 4 ['U', 'N', 'C', '\\'] = true ∧
      (parseNextComponent true (path.drop 8)).1 = server ∧
      (parseNextComponent true (parseNextComponent true (path.drop 8)).2).1 = share := by
  unfold parsePrefix at parsed
  split_ifs at parsed with h1 h2 h3 h4
  all_goals first | (split at parsed <;> simp at parsed) | skip
  all_goals simp at parsed
  obtain ⟨rfl, rfl⟩ := parsed
  exact ⟨h3, rfl, rfl⟩

theorem parsePrefix_eq_verbatimDisk {path : List Char} {drive : Char}
    (parsed : parsePrefix path = some (.verbatimDisk drive)) :
    viewHas path 4 ['U', 'N', 'C', '\\'] = false ∧
      parseDriveExact (path.drop 4) = some drive := by
  unfold parsePrefix at parsed
  split_ifs at parsed with h1 h2 h3 h4
  all_goals first | (split at parsed <;> simp at parsed) | simp at parsed
  rename_i found
  exact ⟨by simpa using h3, by rw [found, ← parsed]⟩

theorem parsePrefix_eq_verbatim {path name : List Char}
    (parsed : parsePrefix path = some (.verbatim name)) :
    viewHas path 4 ['U', 'N', 'C', '\\'] = false ∧ parseDriveExact (path.drop 4) = none ∧
      (parseNextComponent true (path.drop 4)).1 = name := by
  unfold parsePrefix at parsed
  split_ifs at parsed with h1 h2 h3 h4
  all_goals first | (split at parsed <;> simp at parsed) | simp at parsed
  rename_i found
  exact ⟨by simpa using h3, found, parsed⟩

/-- A component read by `parse_next_component` is followed by a separator or by nothing. -/
theorem parseNextComponent_next (verbatim : Bool) (text : List Char) :
    (parseNextComponent verbatim text).1.length ≤ text.length ∧
      (text.drop (parseNextComponent verbatim text).1.length).head?.all
        (separatorOf verbatim) := by
  rcases parseNextComponent_split verbatim text with ⟨whole, -⟩ | ⟨s, isSep, split⟩
  · have lengths := congrArg List.length whole
    exact ⟨lengths.ge, by simp [List.drop_eq_nil_of_le lengths.le]⟩
  · have lengths := congrArg List.length split
    have dropped := congrArg (List.drop (parseNextComponent verbatim text).1.length) split
    rw [List.drop_left] at dropped
    simp only [List.length_append, List.length_cons] at lengths
    exact ⟨by omega, by simp [dropped, isSep]⟩

/-- Right after a verbatim prefix the path ends or goes on with a backslash. -/
theorem parsePrefix_verbatim_next {path : List Char} {p : Prefix}
    (parsed : parsePrefix path = some p) (verbatim : p.isVerbatim = true) :
    p.len ≤ path.length ∧ (path.drop p.len).head?.all isVerbatimSep := by
  have separator : separatorOf true = isVerbatimSep := rfl
  cases p with
  | unc | disk | deviceNS => simp [Prefix.isVerbatim] at verbatim
  | verbatimUNC server share =>
      obtain ⟨unc, hserver, hshare⟩ := parsePrefix_eq_verbatimUNC parsed
      have eight : 8 ≤ path.length := by simpa using length_le_of_viewHas unc (by simp) (by simp)
      obtain ⟨serverShort, serverNext⟩ := hserver ▸ parseNextComponent_next true (path.drop 8)
      rw [List.length_drop] at serverShort
      rw [List.drop_drop, separator] at serverNext
      by_cases noShare : share = []
      · subst noShare
        simp only [Prefix.len, List.length_nil, Nat.lt_irrefl, if_false, Nat.add_zero]
        exact ⟨by omega, serverNext⟩
      · rcases parseNextComponent_split true (path.drop 8) with
          ⟨-, empty⟩ | ⟨s, -, serverSplit⟩
        · simp [← hshare, empty, parseNextComponent] at noShare
        have afterServer : path.drop (8 + server.length + 1) =
            (parseNextComponent true (path.drop 8)).2 := by
          have dropped := congrArg (List.drop (server.length + 1)) serverSplit
          rw [hserver, List.drop_drop, List.drop_append] at dropped
          simpa [Nat.add_assoc] using dropped
        obtain ⟨shareShort, shareNext⟩ :=
          hshare ▸ parseNextComponent_next true (parseNextComponent true (path.drop 8)).2
        rw [← afterServer, List.length_drop] at shareShort
        rw [← afterServer, List.drop_drop, separator] at shareNext
        have named := List.length_pos.mpr noShare
        simp only [Prefix.len, named, if_true]
        exact ⟨by omega, by rwa [show 8 + server.length + (1 + share.length) =
          8 + server.length + 1 + share.length by omega]⟩
  | verbatimDisk drive =>
      obtain ⟨-, exact⟩ := parsePrefix_eq_verbatimDisk parsed
      unfold parseDriveExact at exact
      split_ifs at exact with next
      obtain ⟨letter, tail, split, -, -⟩ := parseDrive_eq_some exact
      have lengths := congrArg List.length split
      simp only [List.length_drop, List.length_cons] at lengths
      simp only [Prefix.len]
      refine ⟨by omega, ?_⟩
      rw [show 6 = 4 + 2 from rfl, ← List.drop_drop, split]
      cases tail with
      | nil => rfl
      | cons => simpa [split] using next
  | verbatim name =>
      obtain ⟨-, verb, -⟩ := parsePrefix_verbatim_branch parsed verbatim
      have four : 4 ≤ path.length := by simpa using length_le_of_viewHas verb (by simp) (by simp)
      obtain ⟨-, -, hname⟩ := parsePrefix_eq_verbatim parsed
      obtain ⟨short, next⟩ := hname ▸ parseNextComponent_next true (path.drop 4)
      rw [List.length_drop] at short
      rw [List.drop_drop, separator] at next
      simp only [Prefix.len]
      exact ⟨by omega, next⟩

/-- A backslash among the four bytes after `\\?\` is no `UNC\`. -/
theorem viewHas_unc_of_backslash {text : List Char} {k : Nat} (backslash : text[k]? = some '\\')
    (after : 4 ≤ k) (before : k < 7) : viewHas text 4 ['U', 'N', 'C', '\\'] = false := by
  rw [viewHas, decide_eq_false_iff_not]
  intro has
  have atK := congrArg (fun view : List Char => view[k - 4]?) has
  obtain rfl | rfl | rfl : k = 4 ∨ k = 5 ∨ k = 6 := by omega
  all_goals simp [prefixView, List.getElem?_take, List.getElem?_drop, backslash] at atK

/-- `parse_drive_exact` reads three bytes. -/
theorem parseDriveExact_congr {text other : List Char} (same : text.take 3 = other.take 3) :
    parseDriveExact text = parseDriveExact other := by
  have index : text[2]? = other[2]? := by
    rw [← List.getElem?_take_of_lt (show 2 < 3 by omega), same,
      List.getElem?_take_of_lt (show 2 < 3 by omega)]
  rw [parseDriveExact, parseDriveExact, index, ← parseDrive_take text (show 2 ≤ 3 by omega),
    same, parseDrive_take other (show 2 ≤ 3 by omega)]

/-- A verbatim prefix followed by a backslash reads the same whatever follows the backslash;
for a UNC share only with a share name, which would otherwise be read from what follows. -/
theorem parsePrefix_verbatim_append {path rest : List Char} {p : Prefix}
    (parsed : parsePrefix path = some p) (verbatim : p.isVerbatim = true)
    (named : ∀ server, p ≠ .verbatimUNC server [])
    (rooted : (path.drop p.len).head? = some '\\') :
    parsePrefix (path.take p.len ++ '\\' :: rest) = some p := by
  obtain ⟨long, -⟩ := parsePrefix_verbatim_next parsed verbatim
  have lengthA : (path.take p.len).length = p.len := by simp [long]
  obtain ⟨B, dropped⟩ : ∃ B, path.drop p.len = '\\' :: B := by
    cases after : path.drop p.len with
    | nil => simp [after] at rooted
    | cons c B => exact ⟨B, by simp_all⟩
  have pathSplit : path = path.take p.len ++ '\\' :: B := by
    rw [← dropped, List.take_append_drop]
  have four : 4 ≤ p.len := by
    cases p <;> simp only [Prefix.isVerbatim, Prefix.len, Bool.false_eq_true] at verbatim ⊢ <;>
      omega
  -- the two texts agree up to and with the backslash after the prefix
  have agree : ∀ n ≤ p.len + 1, (path.take p.len ++ '\\' :: rest).take n = path.take n := by
    intro n within
    conv_rhs => rw [pathSplit]
    rw [List.take_append_eq_append_take, List.take_append_eq_append_take, lengthA]
    obtain short | one : n - p.len = 0 ∨ n - p.len = 1 := by omega
    · rw [short]; rfl
    · rw [one]; rfl
  have afterPrefix : (path.take p.len ++ '\\' :: rest)[p.len]? = some '\\' := by
    rw [List.getElem?_append_right (by omega), lengthA, Nat.sub_self]
    simp
  obtain ⟨double, verb⟩ := parsePrefix_verbatim_branch parsed verbatim
  obtain ⟨double', verb', -⟩ := parsePrefix_branch_congr (agree 4 (by omega))
  rw [parsePrefix, if_pos (double'.trans double), if_pos (verb'.mpr verb)]
  cases p with
  | unc | disk | deviceNS => simp [Prefix.isVerbatim] at verbatim
  | verbatimUNC server share =>
      have shareNamed : share ≠ [] := fun empty => named server (by rw [empty])
      obtain ⟨unc, hserver, hshare⟩ := parsePrefix_eq_verbatimUNC parsed
      have serverFree : ∀ c ∈ server, separatorOf true c = false :=
        hserver ▸ parseNextComponent_fst_sepFree true _
      have shareFree : ∀ c ∈ share, separatorOf true c = false :=
        hshare ▸ parseNextComponent_fst_sepFree true _
      simp only [Prefix.len, List.length_pos.mpr shareNamed, if_true] at agree lengthA ⊢
      obtain ⟨tail, split⟩ : ∃ tail, path.drop 8 = server ++ '\\' :: (share ++ tail) := by
        rcases parseNextComponent_split true (path.drop 8) with
          ⟨-, empty⟩ | ⟨s, isSep, serverSplit⟩
        · rw [empty] at hshare
          exact absurd hshare.symm shareNamed
        · have backslash : s = '\\' := by simpa [separatorOf, isVerbatimSep] using isSep
          rw [hserver, backslash] at serverSplit
          rcases parseNextComponent_split true (parseNextComponent true (path.drop 8)).2 with
            ⟨whole, -⟩ | ⟨s', -, shareSplit⟩
          · rw [hshare] at whole
            exact ⟨[], by rw [serverSplit, List.append_nil, ← whole]⟩
          · rw [hshare] at shareSplit
            exact ⟨_, by rw [serverSplit, ← shareSplit]⟩
      have dropped8 : (path.take (8 + server.length + (1 + share.length)) ++ '\\' :: rest).drop 8 =
          server ++ '\\' :: (share ++ '\\' :: rest) := by
        rw [List.drop_append_of_le_length (by omega), List.drop_take, split,
          show 8 + server.length + (1 + share.length) - 8 = (server ++ '\\' :: share).length by
            simp; omega,
          show server ++ '\\' :: (share ++ tail) = (server ++ '\\' :: share) ++ tail by simp,
          List.take_left]
        simp
      rw [if_pos (by rw [viewHas_congr (agree 8 (by omega)) (by simp) (le_refl 8)]; exact unc),
        dropped8,
        parseNextComponent_append_cons serverFree (show separatorOf true '\\' = true from rfl),
        parseNextComponent_append_cons shareFree (show separatorOf true '\\' = true from rfl)]
  | verbatimDisk drive =>
      obtain ⟨-, exact⟩ := parsePrefix_eq_verbatimDisk parsed
      simp only [Prefix.len] at agree afterPrefix ⊢
      have driveSame : ((path.take 6 ++ '\\' :: rest).drop 4).take 3 = (path.drop 4).take 3 := by
        rw [List.take_drop, List.take_drop, show 4 + 3 = 7 from rfl, agree 7 (by omega)]
      rw [if_neg (by simp [viewHas_unc_of_backslash afterPrefix (by omega) (by omega)]),
        parseDriveExact_congr driveSame, exact]
  | verbatim name =>
      obtain ⟨notUnc, notDrive, hname⟩ := parsePrefix_eq_verbatim parsed
      simp only [Prefix.len] at agree afterPrefix lengthA ⊢
      have nameFree : ∀ c ∈ name, separatorOf true c = false :=
        hname ▸ parseNextComponent_fst_sepFree true _
      have nameTaken : (path.drop 4).take name.length = name := by
        rcases parseNextComponent_split true (path.drop 4) with ⟨whole, -⟩ | ⟨s, -, split⟩
        · rw [hname] at whole
          rw [← whole, List.take_length]
        · rw [hname] at split
          rw [split, List.take_left]
      have dropped4 :
          (path.take (4 + name.length) ++ '\\' :: rest).drop 4 = name ++ '\\' :: rest := by
        rw [List.drop_append_of_le_length (by omega), List.drop_take, Nat.add_sub_cancel_left,
          nameTaken]
      have unc : viewHas (path.take (4 + name.length) ++ '\\' :: rest) 4 ['U', 'N', 'C', '\\'] =
          false := by
        by_cases seven : 7 ≤ 4 + name.length
        · rw [viewHas_congr (agree 8 (by omega)) (by simp) (le_refl 8)]
          exact notUnc
        · exact viewHas_unc_of_backslash afterPrefix (by omega) (by omega)
      have drive :
          parseDriveExact ((path.take (4 + name.length) ++ '\\' :: rest).drop 4) = none := by
        by_cases two : 2 ≤ name.length
        · rw [parseDriveExact_congr (show _ = (path.drop 4).take 3 by
            rw [List.take_drop, List.take_drop, agree (4 + 3) (by omega)])]
          exact notDrive
        · rw [dropped4]
          rcases name with _ | ⟨c, _ | ⟨d, more⟩⟩
          · cases rest with
            | nil => simp [parseDriveExact, parseDrive]
            | cons c more =>
                simp [parseDriveExact, parseDrive_cons_cons,
                  show Char.isAlpha '\\' = false by decide]
          · simp [parseDriveExact, parseDrive_cons_cons]
          · simp at two
      rw [if_neg (by simp [unc]), drive, dropped4,
        parseNextComponent_append_cons nameFree (show separatorOf true '\\' = true from rfl)]

end Windows

/-- Only a Windows path has a verbatim prefix. -/
theorem exists_verbatim_of_prefixVerbatim {pf : Platform} {path : List Char}
    (verbatim : prefixVerbatim pf path = true) :
    pf = .windows ∧ ∃ p, Windows.parsePrefix path = some p ∧ p.isVerbatim = true := by
  cases pf with
  | unix => simp [prefixVerbatim, Platform.parsePrefix] at verbatim
  | windows =>
      cases parsed : Windows.parsePrefix path with
      | none => simp [prefixVerbatim, Platform.parsePrefix, parsed] at verbatim
      | some p =>
          exact ⟨rfl, p, rfl,
            by simpa [prefixVerbatim, Platform.parsePrefix, parsed] using verbatim⟩

/-- The components of a verbatim path: the prefix, a root if one is written out, and the body
split at backslashes. -/
theorem components_verbatim {path : List Char} {p : Prefix}
    (parsed : Windows.parsePrefix path = some p) (verbatim : p.isVerbatim = true) :
    components .windows path = .prefixComponent p ::
      ((if hasPhysicalRoot .windows path then [.rootDir] else []) ++
        bodyComponents Windows.isVerbatimSep true
          (path.drop (p.len + if hasPhysicalRoot .windows path then 1 else 0))) := by
  have separators : isSep .windows path = Windows.isVerbatimSep := by
    funext c
    simp [isSep, prefixVerbatim, Platform.parsePrefix, parsed, verbatim]
  by_cases physical : hasPhysicalRoot .windows path <;>
    simp [components, startDir, physical, prefixLen, Platform.parsePrefix, parsed, separators,
      prefixVerbatim, verbatim]

/-- What the rebuild writes out and reads back unchanged: a name that reads as a name and has
no backslash, or `.` or `..`, which a verbatim path keeps. -/
def Component.rebuildable : Component → Bool
  | .normal name => !name.isEmpty && name != ['.'] && name != ['.', '.'] && !name.contains '\\'
  | .curDir | .parentDir => true
  | .prefixComponent _ | .rootDir => false

/-- A name ending with `/`, which only a verbatim path holds: it reads `\` alone as a
separator. -/
def Component.slashEnded : Component → Bool
  | .normal name => name.getLast? == some '/'
  | _ => false

theorem mem_splitOnP_sepFree {α : Type} {p : α → Bool} :
    ∀ {text piece : List α}, piece ∈ text.splitOnP p → ∀ x ∈ piece, p x = false
  | [], piece, member => by simp_all [List.splitOnP_nil]
  | y :: text, piece, member => by
      rw [List.splitOnP_cons] at member
      split at member
      · rcases List.mem_cons.mp member with rfl | later
        · simp
        · exact mem_splitOnP_sepFree later
      · rename_i kept
        obtain ⟨first, others, split⟩ :=
          List.exists_cons_of_ne_nil (List.splitOnP_ne_nil p text)
        rw [split, List.modifyHead_cons] at member
        rcases List.mem_cons.mp member with rfl | later
        · intro x member
          rcases List.mem_cons.mp member with rfl | inFirst
          · simpa using kept
          · exact mem_splitOnP_sepFree (split ▸ List.mem_cons_self _ _) x inFirst
        · exact mem_splitOnP_sepFree (split ▸ List.mem_cons_of_mem _ later)

/-- The body of a path is made of components the rebuild keeps, as long as the backslash
separates there. -/
theorem rebuildable_of_mem_bodyComponents {sep : Char → Bool} (backslash : sep '\\' = true)
    {verbatim : Bool} {body : List Char} {c : Component}
    (member : c ∈ bodyComponents sep verbatim body) : c.rebuildable = true := by
  obtain ⟨piece, inPieces, parsed⟩ := List.mem_filterMap.mp member
  have noBackslash : '\\' ∉ piece := fun inPiece => by
    simpa [backslash] using mem_splitOnP_sepFree inPieces _ inPiece
  unfold parseSingleComponent at parsed
  split at parsed
  · cases parsed
  · split at parsed <;> cases parsed; rfl
  · cases parsed; rfl
  · cases parsed
    rename_i notEmpty notDot notDots
    simpa [Component.rebuildable, List.isEmpty_iff, noBackslash] using
      And.intro (And.intro notEmpty notDot) notDots

/-- Where `/` separates, the body holds no name ending with it. -/
theorem slashEnded_of_mem_bodyComponents {sep : Char → Bool} (slash : sep '/' = true)
    {verbatim : Bool} {body : List Char} {c : Component}
    (member : c ∈ bodyComponents sep verbatim body) : c.slashEnded = false := by
  obtain ⟨piece, inPieces, parsed⟩ := List.mem_filterMap.mp member
  unfold parseSingleComponent at parsed
  split at parsed
  all_goals first | (split at parsed <;> simp at parsed) | simp at parsed
  all_goals subst parsed
  all_goals try rfl
  have free := mem_splitOnP_sepFree inPieces
  simp only [Component.slashEnded, beq_eq_false_iff_ne]
  intro last
  simpa [slash] using free '/' (List.mem_of_getLast?_eq_some last)

/-! ## Writing the stack out and reading it back -/

section Render

variable {pf : Platform} {prefixText : List Char}

theorem renderComponents_cons {c : Component} (kept : c.rebuildable = true) (needSep : Bool)
    (rest : List Component) :
    renderComponents pf prefixText needSep (c :: rest) =
      (if needSep then [pf.mainSeparator] else []) ++ c.asOsStr pf prefixText ++
        renderComponents pf prefixText true rest := by
  cases c <;> cases needSep <;> simp_all [renderComponents, Component.rebuildable]

theorem bodyComponents_asOsStr {c : Component} (kept : c.rebuildable = true) :
    bodyComponents Windows.isVerbatimSep true (c.asOsStr pf prefixText) = [c] := by
  cases c with
  | normal name =>
      simp only [Component.rebuildable, Bool.and_eq_true, Bool.not_eq_true', bne_iff_ne, ne_eq,
        List.isEmpty_iff] at kept
      obtain ⟨⟨⟨notEmpty, notDot⟩, notDots⟩, noBackslash⟩ := kept
      have free : ∀ x ∈ name, Windows.isVerbatimSep x = false := fun x member => by
        simp only [Windows.isVerbatimSep, decide_eq_false_iff_not]
        rintro rfl
        simp [member] at noBackslash
      rw [Component.asOsStr, bodyComponents_of_sepFree free,
        parseSingleComponent_of_normal (by simpa [List.isEmpty_iff] using notEmpty) notDot notDots]
      rfl
  | curDir | parentDir => rfl
  | prefixComponent | rootDir => cases kept

/-- Written out with backslashes between them and read back as the body of a verbatim path,
components the rebuild keeps come back as they were. -/
theorem bodyComponents_renderComponents :
    ∀ {rest : List Component}, (∀ c ∈ rest, c.rebuildable = true) → ∀ needSep,
      bodyComponents Windows.isVerbatimSep true
        (renderComponents .windows prefixText needSep rest) = rest
  | [], _, _ => by simp [renderComponents]
  | c :: rest, kept, needSep => by
      have keptRest : ∀ d ∈ rest, d.rebuildable = true := fun d member =>
        kept d (List.mem_cons_of_mem _ member)
      have inductionHypothesis := @bodyComponents_renderComponents rest keptRest true
      have named : bodyComponents Windows.isVerbatimSep true
          (c.asOsStr .windows prefixText ++ renderComponents .windows prefixText true rest) =
            c :: rest := by
        cases rest with
        | nil => simpa [renderComponents] using bodyComponents_asOsStr (kept c (by simp))
        | cons d others =>
            have written : renderComponents .windows prefixText true (d :: others) =
                '\\' :: (d.asOsStr .windows prefixText ++
                  renderComponents .windows prefixText true others) := by
              rw [renderComponents_cons (keptRest d (by simp))]
              rfl
            rw [written, bodyComponents_append_cut (.inr (.inr ⟨_, _, rfl, rfl⟩)),
              bodyComponents_asOsStr (kept c (by simp)), ← written, inductionHypothesis]
            rfl
      rw [renderComponents_cons (kept c (by simp))]
      cases needSep
      · simpa using named
      · rw [if_pos rfl, List.append_assoc, List.singleton_append, ← List.nil_append (_ :: _),
          @bodyComponents_append_cons Windows.isVerbatimSep true (Platform.mainSeparator .windows)
            rfl [], bodyComponents_nil,
          List.nil_append, named]

end Render

/-! ## The stack -/

/-- The stack of the verbatim rebuild as its loop leaves it: the prefix, the root if one was
pushed, and the components above them. -/
def verbatimStack (p : Prefix) (rooted : Bool) (rest : List Component) : List Component :=
  .prefixComponent p :: ((if rooted then [.rootDir] else []) ++ rest)

/-- `..` pops a name off the stack, and never the root or the prefix. -/
theorem pushVerbatimComponents_parentDir (p : Prefix) (rooted : Bool) {kept : Component → Prop}
    {rest : List Component} (keep : ∀ c ∈ rest, kept c) (comps : List Component) :
    ∃ rest', pushVerbatimComponents (verbatimStack p rooted rest) (.parentDir :: comps) =
        pushVerbatimComponents (verbatimStack p rooted rest') comps ∧
      ∀ c ∈ rest', kept c := by
  cases rest using List.reverseRecOn with
  | nil => exact ⟨[], by cases rooted <;> rfl, by simp⟩
  | append_singleton front last =>
      have split : verbatimStack p rooted (front ++ [last]) =
          verbatimStack p rooted front ++ [last] := by
        simp [verbatimStack]
      rw [pushVerbatimComponents, split, List.getLast?_concat]
      split
      · rename_i name same
        obtain rfl : last = .normal name := Option.some.inj same
        exact ⟨front, by rw [List.dropLast_concat], fun c member => keep c (by simp [member])⟩
      · exact ⟨front ++ [last], by rw [split], keep⟩

/-- Over components that are roots or of a kind `kept`, the loop of the verbatim rebuild keeps
the shape of its stack: a root cuts it back to the prefix and the root, `.` is skipped, `..`
pops a name, and any other component is pushed. A rooted stack stays rooted. -/
theorem pushVerbatimComponents_shape (p : Prefix) {kept : Component → Prop} :
    ∀ {comps : List Component}, (∀ c ∈ comps, c = .rootDir ∨ kept c) →
      ∀ (rooted : Bool) {rest : List Component}, (∀ c ∈ rest, kept c) →
        ∃ rooted' rest', (rooted = true → rooted' = true) ∧
          pushVerbatimComponents (verbatimStack p rooted rest) comps =
            verbatimStack p rooted' rest' ∧ ∀ c ∈ rest', kept c
  | [], _, rooted, rest, keep => ⟨rooted, rest, id, rfl, keep⟩
  | c :: comps, allowed, rooted, rest, keep => by
      have allowedRest : ∀ d ∈ comps, d = .rootDir ∨ kept d := fun d member =>
        allowed d (List.mem_cons_of_mem _ member)
      have pushed : ∀ {c}, kept c →
          (pushVerbatimComponents (verbatimStack p rooted rest) (c :: comps) =
            pushVerbatimComponents (verbatimStack p rooted (rest ++ [c])) comps) →
          ∃ rooted' rest', (rooted = true → rooted' = true) ∧
            pushVerbatimComponents (verbatimStack p rooted rest) (c :: comps) =
              verbatimStack p rooted' rest' ∧ ∀ c ∈ rest', kept c := fun keptC step => by
        rw [step]
        exact pushVerbatimComponents_shape p allowedRest rooted
          (by simpa [or_imp, forall_and] using And.intro keep keptC)
      cases c with
      | rootDir =>
          obtain ⟨rooted', rest', stays, cut, keep'⟩ :=
            @pushVerbatimComponents_shape p kept comps allowedRest true [] (by simp)
          exact ⟨rooted', rest', fun _ => stays rfl, by rw [← cut]; cases rooted <;> rfl,
            keep'⟩
      | curDir => exact pushVerbatimComponents_shape p allowedRest rooted keep
      | parentDir =>
          obtain ⟨rest', popped, keep'⟩ := pushVerbatimComponents_parentDir p rooted keep comps
          rw [popped]
          exact pushVerbatimComponents_shape p allowedRest rooted keep'
      | normal name =>
          exact pushed ((allowed _ (List.mem_cons_self _ _)).resolve_left (by simp))
            (by simp [pushVerbatimComponents, verbatimStack])
      | prefixComponent q =>
          exact pushed ((allowed _ (List.mem_cons_self _ _)).resolve_left (by simp))
            (by simp [pushVerbatimComponents, verbatimStack])

/-- Run from a rooted stack, the loop keeps it rooted, with only kept components above the
root. -/
theorem pushVerbatimComponents_rooted (p : Prefix) {comps : List Component}
    (allowed : ∀ c ∈ comps, c = .rootDir ∨ c.rebuildable = true) {rest : List Component}
    (kept : ∀ c ∈ rest, c.rebuildable = true) :
    ∃ rest', pushVerbatimComponents (.prefixComponent p :: .rootDir :: rest) comps =
        .prefixComponent p :: .rootDir :: rest' ∧ ∀ c ∈ rest', c.rebuildable = true := by
  obtain ⟨rooted', rest', stays, pushed, kept'⟩ :=
    pushVerbatimComponents_shape p allowed true kept
  obtain rfl := stays rfl
  exact ⟨rest', pushed, kept'⟩

/-- The stack written out: the prefix, the root's backslash if any, and the components above
them with a backslash before each but one right after the root. -/
theorem renderComponents_verbatimStack {prefixText : List Char} {p : Prefix}
    (verbatim : p.isVerbatim = true) (rooted : Bool) (rest : List Component) :
    renderComponents .windows prefixText false (verbatimStack p rooted rest) =
      prefixText ++ (if rooted then ['\\'] else []) ++
        renderComponents .windows prefixText (!rooted) rest := by
  have separated : (!p.isDrive && 0 < p.len) = true := by
    cases p <;>
      simp_all [Prefix.isVerbatim, Prefix.isDrive, Prefix.len, Nat.add_pos_iff_pos_or_pos]
  cases rooted <;>
    simp [verbatimStack, renderComponents, Component.asOsStr, separated, Platform.mainSeparator]

/-- A component the rebuild keeps is written out ending with something other than a backslash,
and with `/` only as a name ending with it. -/
theorem getLast?_asOsStr {c : Component} (kept : c.rebuildable = true) (pf : Platform)
    (prefixText : List Char) :
    ∃ x, (c.asOsStr pf prefixText).getLast? = some x ∧ x ≠ '\\' ∧
      (x = '/' → c.slashEnded = true) := by
  cases c with
  | normal name =>
      simp only [Component.rebuildable, Bool.and_eq_true, Bool.not_eq_true', bne_iff_ne, ne_eq,
        List.isEmpty_iff] at kept
      obtain ⟨⟨⟨notEmpty, -⟩, -⟩, noBackslash⟩ := kept
      have nonempty : name ≠ [] := by
        rintro rfl
        simp at notEmpty
      obtain ⟨x, last⟩ : ∃ x, name.getLast? = some x :=
        Option.ne_none_iff_exists'.mp (mt List.getLast?_eq_none_iff.mp nonempty)
      have notBackslash : x ≠ '\\' := by
        rintro rfl
        simp [List.mem_of_getLast?_eq_some last] at noBackslash
      exact ⟨x, last, notBackslash, fun slash => by simp [Component.slashEnded, last, slash]⟩
  | curDir | parentDir => exact ⟨'.', rfl, by decide, by decide⟩
  | prefixComponent | rootDir => cases kept

/-- Components the rebuild keeps, written out, are nothing exactly when there are none, and
otherwise end with something other than a backslash. -/
theorem renderComponents_ends {pf : Platform} {prefixText : List Char} {needSep : Bool}
    {body : List Component} (kept : ∀ c ∈ body, c.rebuildable = true) :
    (body = [] ∧ renderComponents pf prefixText needSep body = []) ∨
      (body ≠ [] ∧ ∃ x, (renderComponents pf prefixText needSep body).getLast? = some x ∧
        x ≠ '\\') := by
  cases body using List.reverseRecOn with
  | nil => exact .inl ⟨rfl, rfl⟩
  | append_singleton front last =>
      obtain ⟨x, lastChar, notSep, -⟩ := getLast?_asOsStr (kept last (by simp)) pf prefixText
      obtain ⟨written, ends⟩ := renderComponents_concat pf prefixText needSep front last
      refine .inr ⟨by simp, x, ?_, notSep⟩
      rw [← ends, List.getLast?_append_of_ne_nil _ (by
        rintro empty
        simp [empty] at lastChar), lastChar]

/-! ## Reading the rebuilt path -/

/-- A verbatim path with its root written out: the prefix, the root, and the body split at
backslashes. -/
theorem components_verbatim_rooted {path : List Char} {p : Prefix}
    (parsed : Windows.parsePrefix path = some p) (verbatim : p.isVerbatim = true)
    (rooted : (path.drop p.len).head? = some '\\') :
    components .windows path = .prefixComponent p :: .rootDir ::
      bodyComponents Windows.isVerbatimSep true (path.drop (p.len + 1)) := by
  have physical : hasPhysicalRoot .windows path = true := by
    rw [hasPhysicalRoot_eq_head]
    simp [prefixLen, Platform.parsePrefix, parsed, rooted, Platform.isSepByte, Windows.isSepByte]
  have separators : isSep .windows path = Windows.isVerbatimSep := by
    funext c
    simp [isSep, prefixVerbatim, Platform.parsePrefix, parsed, verbatim]
  simp [components, startDir, physical, prefixLen, Platform.parsePrefix, parsed, separators,
    prefixVerbatim, verbatim]

/-- What a path without a prefix gives the verbatim rebuild: a root, `.`, and components it
keeps, none of them a name ending with `/`, which separates there. -/
theorem rebuildable_of_mem_components {path : List Char}
    (prefixNone : Platform.windows.parsePrefix path = none) {c : Component}
    (member : c ∈ components .windows path) :
    c = .rootDir ∨ c.rebuildable = true ∧ c.slashEnded = false := by
  have separators : isSep .windows path = Platform.windows.isSepByte := by
    funext c
    simp [isSep, prefixVerbatim, prefixNone]
  rw [components, prefixNone, separators] at member
  simp only [Option.map_none', Option.toList_none, List.nil_append, List.mem_append] at member
  rcases member with start | body
  · rcases startDir_fst .windows path with first | first | first <;> rw [first] at start <;>
      simp_all [Component.rebuildable, Component.slashEnded]
  · exact .inr ⟨rebuildable_of_mem_bodyComponents rfl body,
      slashEnded_of_mem_bodyComponents rfl body⟩

/-- `Path::join` of a path without a prefix onto a verbatim base with its root written out,
read back: the stack the rebuild built from the components of both. A UNC share without a
share name is the exception, as the first name written after it becomes the share. -/
theorem components_join_verbatim {pf : Platform} {base path : List Char}
    (verbatim : prefixVerbatim pf base = true) (physical : hasPhysicalRoot pf base = true)
    (named : ∀ server, pf.parsePrefix base ≠ some (.verbatimUNC server []))
    (prefixNone : pf.parsePrefix path = none) (nonempty : path ≠ []) :
    components pf (join pf base path) =
      pushVerbatimComponents (components pf base) (components pf path) := by
  obtain ⟨rfl, p, parsed, pVerbatim⟩ := exists_verbatim_of_prefixVerbatim verbatim
  have rooted : (base.drop p.len).head? = some '\\' := by
    have next := (Windows.parsePrefix_verbatim_next parsed pVerbatim).2
    rw [hasPhysicalRoot_eq_head] at physical
    simp only [prefixLen, Platform.parsePrefix, parsed, Option.map_some',
      Option.getD_some] at physical
    cases after : (base.drop p.len).head? with
    | none => simp [after] at physical
    | some c => simpa [after, Windows.isVerbatimSep] using next
  obtain ⟨rest, stacked, kept⟩ := pushVerbatimComponents_rooted p
    (fun c member => (rebuildable_of_mem_components prefixNone member).imp_right And.left)
    (fun c member => rebuildable_of_mem_bodyComponents
      (show Windows.isVerbatimSep '\\' = true from rfl) member)
  rw [← components_verbatim_rooted parsed pVerbatim rooted] at stacked
  have pushed : push .windows base path = renderComponents .windows (base.take p.len) false
      (pushVerbatimComponents (components .windows base) (components .windows path)) := by
    have prefixNone' : Windows.parsePrefix path = none := prefixNone
    simp [push, isAbsolute, prefixNone', verbatim, nonempty, prefixLen, Platform.parsePrefix,
      parsed]
  have written : renderComponents .windows (base.take p.len) false
      (.prefixComponent p :: .rootDir :: rest) =
        base.take p.len ++ '\\' :: renderComponents .windows (base.take p.len) false rest := by
    simp [renderComponents, Component.asOsStr, Platform.mainSeparator]
  have prefixLength : (base.take p.len).length = p.len := by
    simp [(Windows.parsePrefix_verbatim_next parsed pVerbatim).1]
  have dropped :
      ∀ text : List Char, (base.take p.len ++ '\\' :: text).drop (p.len + 1) = text :=
    fun text => by
      rw [show base.take p.len ++ '\\' :: text = (base.take p.len ++ ['\\']) ++ text by simp,
        List.drop_left' (by simp [prefixLength])]
  rw [join, pushed, stacked, written,
    components_verbatim_rooted (Windows.parsePrefix_verbatim_append parsed pVerbatim
      (fun server same => named server (by simp [Platform.parsePrefix, parsed, same])) rooted)
      pVerbatim (by rw [List.drop_left' prefixLength]; rfl),
    dropped, bodyComponents_renderComponents kept]

theorem components_join_verbatim_dots :
    components .windows (join .windows "\\\\?\\C:\\a\\b".toList "../c/./d".toList) =
      pushVerbatimComponents (components .windows "\\\\?\\C:\\a\\b".toList)
        (components .windows "../c/./d".toList) :=
  components_join_verbatim (by decide) (by decide)
    (fun server => by
      rw [show Platform.windows.parsePrefix "\\\\?\\C:\\a\\b".toList = some (.verbatimDisk 'C') by
        decide]
      simp)
    (by decide) (by decide)

/-! ## How the rebuilt path ends -/

/-- Components the rebuild keeps and a name after them, written out: a backslash goes in front
of the name unless nothing was written before it. -/
theorem renderComponents_append_name {pf : Platform} {prefixText name : List Char} :
    ∀ {body : List Component}, (∀ c ∈ body, c.rebuildable = true) → ∀ needSep,
      renderComponents pf prefixText needSep (body ++ [.normal name]) =
        renderComponents pf prefixText needSep body ++
          (if needSep || !body.isEmpty then [pf.mainSeparator] else []) ++ name
  | [], _, needSep => by cases needSep <;> simp [renderComponents, Component.asOsStr]
  | c :: body, kept, needSep => by
      rw [List.cons_append, renderComponents_cons (kept c (by simp)),
        renderComponents_cons (kept c (by simp)),
        renderComponents_append_name (fun d member => kept d (by simp [member])) true]
      simp

/-- Every nonempty piece of a verbatim body is a component, so `trim_right` keeps a body that
does not end with a backslash. -/
theorem trimRight_verbatim {body : List Char} {x : Char} (last : body.getLast? = some x)
    (notSep : x ≠ '\\') : trimRight Windows.isVerbatimSep true body = body := by
  have parses : ∀ {piece : List Char}, piece ≠ [] →
      (parseSingleComponent true piece).isSome = true := fun nonempty => by
    unfold parseSingleComponent
    split <;> simp_all
  rcases lastPiece_split Windows.isVerbatimSep body with
    free | ⟨front, s, piece, rfl, isSep, free⟩
  · exact trimRight_piece free (parses (by rintro rfl; simp at last))
  · refine trimRight_append_piece isSep free (parses ?_)
    rintro rfl
    simp only [List.getLast?_concat, Option.some.injEq] at last
    simp [Windows.isVerbatimSep, last, notSep] at isSep

/-- `Path::parent` takes a plain name off a verbatim path with its root written out and no
empty piece behind the root, together with the backslash in front of the name. -/
theorem parent_verbatim_append_name {base body name : List Char} {p : Prefix}
    (parsed : Windows.parsePrefix base = some p) (verbatim : p.isVerbatim = true)
    (named : ∀ server, p ≠ .verbatimUNC server [])
    (rooted : base.drop p.len = '\\' :: body)
    (ends : body = [] ∨ ∃ x, body.getLast? = some x ∧ x ≠ '\\')
    (plain : PlainName .windows name) :
    parent .windows (base ++ (if body.isEmpty then [] else ['\\']) ++ name) = some base := by
  have long := (Windows.parsePrefix_verbatim_next parsed verbatim).1
  have whole : base = base.take p.len ++ '\\' :: body := by rw [← rooted, List.take_append_drop]
  have lengthFront : (base.take p.len).length = p.len := by simp [long]
  obtain ⟨rest, written⟩ :
      ∃ rest, rest = body ++ (if body.isEmpty then [] else ['\\']) ++ name := ⟨_, rfl⟩
  obtain ⟨joinedPath, joined⟩ : ∃ joinedPath, joinedPath = base.take p.len ++ '\\' :: rest :=
    ⟨_, rfl⟩
  rw [show base ++ (if body.isEmpty then [] else ['\\']) ++ name = joinedPath by
    rw [joined, written]
    conv_lhs => rw [whole]
    simp]
  have parsedJoin : Windows.parsePrefix joinedPath = some p := by
    rw [joined]
    exact Windows.parsePrefix_verbatim_append parsed verbatim named (by rw [rooted]; rfl)
  have dropped : joinedPath.drop p.len = '\\' :: rest := by
    rw [joined, List.drop_left' lengthFront]
  have physical : hasPhysicalRoot .windows joinedPath = true := by
    simp [hasPhysicalRoot_eq_head, prefixLen, Platform.parsePrefix, parsedJoin, dropped,
      Platform.isSepByte, Windows.isSepByte]
  have lengths : lenBeforeBody .windows joinedPath = p.len + 1 := by
    simp [lenBeforeBody, prefixLen, Platform.parsePrefix, parsedJoin, physical, includeCurDir,
      hasRoot]
  have separators : isSep .windows joinedPath = Windows.isVerbatimSep := by
    funext c
    simp [isSep, prefixVerbatim, Platform.parsePrefix, parsedJoin, verbatim]
  have verbatimJoin : prefixVerbatim .windows joinedPath = true := by
    simp [prefixVerbatim, Platform.parsePrefix, parsedJoin, verbatim]
  have free : ∀ c ∈ name, Windows.isVerbatimSep c = false := fun c member => by
    have := plain.sepFree c member
    simp only [Platform.isSepByte, Windows.isSepByte, Bool.or_eq_false_iff,
      decide_eq_false_iff_not] at this
    simpa [Windows.isVerbatimSep] using this.2
  have normal : parseSingleComponent true name = some (.normal name) :=
    parseSingleComponent_of_normal plain.notEmpty plain.notDot plain.notDots
  have taken : nextBackBody Windows.isVerbatimSep true rest = some (.normal name, body) := by
    rw [written]
    rcases ends with rfl | ⟨x, last, -⟩
    · exact nextBackBody_name free normal
    · have nonempty : body.isEmpty = false := by
        cases body
        · simp at last
        · rfl
      rw [nonempty, if_neg (by simp), List.append_assoc, List.singleton_append]
      exact nextBackBody_append_name rfl free normal
  have kept : trimRight Windows.isVerbatimSep true body = body := by
    rcases ends with rfl | ⟨x, last, notSep⟩
    · rfl
    · exact trimRight_verbatim last notSep
  rw [parent_of_nextBackBody .windows _ (by
      rw [lengths, separators, verbatimJoin, ← List.drop_drop, dropped]
      exact taken),
    lengths, separators, verbatimJoin, kept, joined, List.take_append_eq_append_take, lengthFront,
    List.take_of_length_le (by omega), Nat.add_sub_cancel_left]
  conv_rhs => rw [whole]
  simp

end Zuban.Path
