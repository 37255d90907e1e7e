import NodeWeave.Proofs.Woven.ParserUnit

/-!
The two ways in which package statements are looked for. Main statements: both find the statement of
a text that is the first one to begin a line, whatever follows it.
-/

namespace NodeWeave

open Text

def isPackageChar (c : Char) : Bool :=
  isWord c || c == '.'

def isSpace (c : Char) : Bool :=
  c == ' ' || c == '\t'

/-- A package statement, from the keyword up to the semicolon: the blanks behind the keyword, the
name, and the blanks behind the name. -/
structure PackageStatement where
  gap : List Char
  name : List Char
  more : List Char
  gap_ne_nil : gap ≠ []
  name_ne_nil : name ≠ []
  isBlank_gap : ∀ c ∈ gap, isBlank c = true
  isPackageChar_name : ∀ c ∈ name, isPackageChar c = true
  isBlank_more : ∀ c ∈ more, isBlank c = true

namespace PackageStatement

def stem (s : PackageStatement) : List Char :=
  "package".toList ++ s.gap ++ s.name ++ s.more

def text (s : PackageStatement) : List Char :=
  s.stem ++ [';']

end PackageStatement

/-- The text up to a place ends with a line end, or is empty. -/
def AtLine (before : List Char) : Prop :=
  before = [] ∨ ∃ line, before = line ++ ['\n']

/-- The text up to a place ends with blanks that begin a line. -/
def OpensLine (before : List Char) : Prop :=
  ∃ lines lead, before = lines ++ lead ∧ AtLine lines ∧ ∀ c ∈ lead, isBlank c = true

/-- The statement stands in its line behind spaces and tabs, and no statement before it begins a
line. -/
structure FirstStatement (lines lead : List Char) (s : PackageStatement) : Prop where
  atLine : AtLine lines
  spaces : ∀ c ∈ lead, isSpace c = true
  first : ∀ before (other : PackageStatement) rest,
    lines ++ lead ++ s.text = before ++ other.text ++ rest → OpensLine before →
      (lines ++ lead).length ≤ before.length

variable {text lead rest tail following lines : List Char} {c : Char} {s : PackageStatement}

/-! ### Characters of names -/

theorem isPackageChar_of_isBlank (blank : isBlank c = true) : isPackageChar c = false := by
  rw [isPackageChar, isWord_eq_false_of_isBlank blank]
  exact beq_false_of_ne fun dot => by
    rw [dot] at blank
    cases blank

theorem isBlank_of_isPackageChar (part : isPackageChar c = true) : isBlank c = false := by
  rw [Bool.eq_false_iff]
  intro blank
  rw [isPackageChar_of_isBlank blank] at part
  cases part

theorem isBlank_of_isSpace (space : isSpace c = true) : isBlank c = true := by
  unfold isSpace at space
  rw [Bool.or_eq_true, beq_iff_eq, beq_iff_eq] at space
  rcases space with rfl | rfl <;> rfl

theorem dropBlanks_append (blank : ∀ c ∈ lead, isBlank c = true) (rest : List Char) :
    dropBlanks (lead ++ rest) = dropBlanks rest :=
  List.dropWhile_append_of_pos blank

theorem dropBlanks_cons (solid : isBlank c = false) (rest : List Char) :
    dropBlanks (c :: rest) = c :: rest :=
  List.dropWhile_cons_of_neg (by rw [solid]; exact Bool.false_ne_true)

theorem isPackageChar_semicolon : isPackageChar ';' = false := by
  simp [isPackageChar, isWord]

namespace PackageStatement

theorem semicolon_not_mem_stem (s : PackageStatement) : ';' ∉ s.stem := by
  have gap : ';' ∉ s.gap := fun mem => absurd (s.isBlank_gap _ mem) (by decide)
  have name : ';' ∉ s.name := fun mem => by
    have part := s.isPackageChar_name _ mem
    rw [isPackageChar_semicolon] at part
    cases part
  have more : ';' ∉ s.more := fun mem => absurd (s.isBlank_more _ mem) (by decide)
  unfold stem
  simp only [List.mem_append, not_or]
  exact ⟨⟨⟨by decide, gap⟩, name⟩, more⟩

theorem exists_text (s : PackageStatement) : ∃ more, s.text = 'p' :: more := by
  have keyword : "package".toList = 'p' :: "ackage".toList := by decide
  unfold text stem
  rw [keyword]
  exact ⟨_, rfl⟩

/-- The name ends where the blanks behind it begin, or the semicolon. -/
theorem span_name (s : PackageStatement) (rest : List Char) :
    (s.name ++ (s.more ++ ';' :: rest)).takeWhile isPackageChar = s.name ∧
      (s.name ++ (s.more ++ ';' :: rest)).dropWhile isPackageChar = s.more ++ ';' :: rest := by
  have stops : (s.more ++ ';' :: rest).takeWhile isPackageChar = [] ∧
      (s.more ++ ';' :: rest).dropWhile isPackageChar = s.more ++ ';' :: rest := by
    rcases behind : s.more with _ | ⟨c, blanks⟩
    · simp [isPackageChar_semicolon]
    · have blank := s.isBlank_more c (by simp [behind])
      simp [isPackageChar_of_isBlank blank]
  rw [List.takeWhile_append_of_pos s.isPackageChar_name,
    List.dropWhile_append_of_pos s.isPackageChar_name, stops.1, stops.2, List.append_nil]
  exact ⟨rfl, rfl⟩

theorem behind_keyword (s : PackageStatement) (rest : List Char) :
    ((s.gap ++ (s.name ++ (s.more ++ ';' :: rest))).head?.map isBlank).getD false = true ∧
      dropBlanks (s.gap ++ (s.name ++ (s.more ++ ';' :: rest))) =
        s.name ++ (s.more ++ ';' :: rest) ∧
      dropBlanks (s.more ++ ';' :: rest) = ';' :: rest := by
  refine ⟨?_, ?_, ?_⟩
  · obtain ⟨c, blanks, gap⟩ := List.exists_cons_of_ne_nil s.gap_ne_nil
    simp [gap, s.isBlank_gap c (by simp [gap])]
  · obtain ⟨c, part, name⟩ := List.exists_cons_of_ne_nil s.name_ne_nil
    rw [dropBlanks_append s.isBlank_gap, name, List.cons_append, dropBlanks_cons]
    exact isBlank_of_isPackageChar (s.isPackageChar_name c (by simp [name]))
  · rw [dropBlanks_append s.isBlank_more, dropBlanks_cons (by decide)]

theorem exists_of_behind_keyword {behind following : List Char}
    (gap : (behind.head?.map isBlank).getD false = true)
    (named : ((dropBlanks behind).head?.map isPackageChar).getD false = true)
    (ended : dropBlanks ((dropBlanks behind).dropWhile isPackageChar) = ';' :: following) :
    ∃ s : PackageStatement, "package".toList ++ behind = s.text ++ following ∧
      s.name = (dropBlanks behind).takeWhile isPackageChar := by
  let s : PackageStatement :=
    { gap := behind.takeWhile isBlank
      name := (dropBlanks behind).takeWhile isPackageChar
      more := ((dropBlanks behind).dropWhile isPackageChar).takeWhile isBlank
      gap_ne_nil := by
        cases behind with
        | nil => simp at gap
        | cons c _ => simpa [List.takeWhile_cons] using gap
      name_ne_nil := by
        cases begins : dropBlanks behind with
        | nil => simp [begins] at named
        | cons c _ => simpa [begins, List.takeWhile_cons] using named
      isBlank_gap := fun c mem => List.all_eq_true.mp List.all_takeWhile c mem
      isPackageChar_name := fun c mem => List.all_eq_true.mp List.all_takeWhile c mem
      isBlank_more := fun c mem => List.all_eq_true.mp List.all_takeWhile c mem }
  have behindName : (dropBlanks behind).dropWhile isPackageChar = s.more ++ ';' :: following := by
    rw [← ended]
    exact List.takeWhile_append_dropWhile.symm
  have behindGap : dropBlanks behind = s.name ++ (s.more ++ ';' :: following) := by
    rw [← behindName]
    exact List.takeWhile_append_dropWhile.symm
  have whole : behind = s.gap ++ (s.name ++ (s.more ++ ';' :: following)) := by
    rw [← behindGap]
    exact List.takeWhile_append_dropWhile.symm
  refine ⟨s, ?_, rfl⟩
  unfold text stem
  rw [whole]
  simp only [List.append_assoc, List.singleton_append]

end PackageStatement

/-! ### Statements that begin here -/

theorem packageHere?_text (blank : ∀ c ∈ lead, isBlank c = true) (s : PackageStatement)
    (rest : List Char) : Grammar.packageHere? (lead ++ s.text ++ rest) = some s.name := by
  obtain ⟨gap, named, ended⟩ := s.behind_keyword rest
  obtain ⟨name, behind⟩ := s.span_name rest
  have some : s.name.isEmpty = false := List.isEmpty_eq_false_iff.mpr s.name_ne_nil
  have keyword : after? "package".toList (dropBlanks (lead ++ s.text ++ rest)) =
      Option.some (s.gap ++ (s.name ++ (s.more ++ ';' :: rest))) := by
    rw [after?_eq_some_iff, List.append_assoc, dropBlanks_append blank]
    unfold PackageStatement.text PackageStatement.stem
    simp only [List.append_assoc, List.singleton_append]
    exact List.dropWhile_cons_of_neg (by decide)
  unfold Grammar.packageHere?
  rw [keyword]
  change (if _ && !((dropBlanks _).takeWhile isPackageChar).isEmpty &&
    (dropBlanks ((dropBlanks _).dropWhile isPackageChar)).head? == _ then
      Option.some ((dropBlanks _).takeWhile isPackageChar) else none) = _
  rw [gap, named, name, behind, ended, some]
  rfl

theorem PackageStatement.name_eq_of_append {t : PackageStatement} {behind : List Char}
    (same : s.text ++ tail = t.text ++ behind) : s.name = t.name := by
  have none : ∀ c ∈ ([] : List Char), isBlank c = true := by simp
  have first := packageHere?_text none s tail
  have second := packageHere?_text none t behind
  rw [List.nil_append] at first second
  rw [same, second] at first
  exact (Option.some.inj first).symm

/-- What is found here is the name of a statement behind blanks. -/
theorem packageHere?_eq_some {name : List Char} (found : Grammar.packageHere? text = some name) :
    ∃ (lead : List Char) (s : PackageStatement) (rest : List Char),
      text = lead ++ s.text ++ rest ∧ (∀ c ∈ lead, isBlank c = true) ∧ s.name = name := by
  unfold Grammar.packageHere? at found
  split at found
  · cases found
  · next behind keyword =>
      dsimp only at found
      split at found
      · next reads =>
          simp only [Bool.and_eq_true, Bool.not_eq_true', beq_iff_eq] at reads
          obtain ⟨⟨gap, named⟩, ended⟩ := reads
          obtain ⟨following, ended⟩ := List.head?_eq_some_iff.mp ended
          have begins : ((dropBlanks behind).head?.map isPackageChar).getD false = true := by
            cases first : dropBlanks behind with
            | nil => simp [first] at named
            | cons c _ =>
                by_contra other
                simp_all [isPackageChar]
          obtain ⟨s, whole, same⟩ := PackageStatement.exists_of_behind_keyword gap begins ended
          refine ⟨text.takeWhile isBlank, s, following, ?_, ?_, ?_⟩
          · rw [List.append_assoc, ← whole, ← after?_eq_some_iff.mp keyword]
            exact List.takeWhile_append_dropWhile.symm
          · exact fun c mem => List.all_eq_true.mp List.all_takeWhile c mem
          · exact same.trans (Option.some.inj found)
      · cases found

/-- What follows a statement without the rest of its line, where that is blank. -/
def behindLine (text : List Char) : List Char :=
  match text.dropWhile isSpace with
  | '\n' :: rest => rest
  | rest => rest

theorem behindLine_of_lineFeed (line : text.dropWhile isSpace = '\n' :: rest) :
    behindLine text = rest := by
  rw [behindLine, line]
  rfl

theorem behindLine_of_ne (more : ∀ rest, text.dropWhile isSpace = '\n' :: rest → False) :
    behindLine text = text.dropWhile isSpace := by
  unfold behindLine
  split
  · next line => exact (more _ line).elim
  · rfl

theorem exists_behindLine (text : List Char) :
    ∃ trail, text = trail ++ behindLine text ∧ ∀ c ∈ trail, isBlank c = true := by
  have spaces (c : Char) (mem : c ∈ text.takeWhile isSpace) : isBlank c = true :=
    isBlank_of_isSpace (List.all_eq_true.mp List.all_takeWhile c mem)
  have parts := List.takeWhile_append_dropWhile (p := isSpace) (l := text)
  unfold behindLine
  split
  · next rest line =>
      refine ⟨text.takeWhile isSpace ++ ['\n'], ?_, ?_⟩
      · rw [line] at parts
        simpa using parts.symm
      · intro c mem
        rcases List.mem_append.mp mem with space | feed
        · exact spaces c space
        · rw [List.mem_singleton.mp feed]
          rfl
  · exact ⟨text.takeWhile isSpace, parts.symm, spaces⟩

/-- The rest of the line of a statement, where that is blank. -/
def lineEnd (text : List Char) : List Char :=
  text.take (text.length - (behindLine text).length)

theorem lineEnd_eq_of_append {trail : List Char} (parts : text = trail ++ behindLine text) :
    lineEnd text = trail := by
  rw [lineEnd]
  conv => lhs; arg 2; rw [parts]
  have lengths := congrArg List.length parts
  rw [List.length_append] at lengths
  rw [lengths, Nat.add_sub_cancel, List.take_left]

theorem lineEnd_append_behindLine (text : List Char) : lineEnd text ++ behindLine text = text := by
  obtain ⟨trail, parts, -⟩ := exists_behindLine text
  rw [lineEnd_eq_of_append parts, ← parts]

theorem isBlank_of_mem_lineEnd (mem : c ∈ lineEnd text) : isBlank c = true := by
  obtain ⟨trail, parts, blank⟩ := exists_behindLine text
  rw [lineEnd_eq_of_append parts] at mem
  exact blank c mem

/-- A solid character ends the line of a statement, whatever follows it. -/
theorem behindLine_append_cons (solid : isBlank c = false) (text rest : List Char) :
    behindLine (text ++ c :: rest) = behindLine text ++ c :: rest := by
  have noSpace : isSpace c = false := by
    rw [Bool.eq_false_iff]
    intro space
    rw [isBlank_of_isSpace space] at solid
    cases solid
  have noFeed : c ≠ '\n' := by
    rintro rfl
    cases solid
  have spaces : (text ++ c :: rest).dropWhile isSpace = text.dropWhile isSpace ++ c :: rest := by
    induction text with
    | nil => simp [noSpace]
    | cons d text ih => by_cases space : isSpace d <;> simp [space, ih]
  unfold behindLine
  rw [spaces]
  rcases text.dropWhile isSpace with _ | ⟨d, more⟩
  · split
    · next feed => exact absurd (List.cons.inj feed).1 noFeed
    · rfl
  · split
    · next feed =>
        obtain ⟨rfl, rfl⟩ := List.cons.inj feed
        rfl
    · next other =>
        split
        · next feed => exact (other _ (by rw [feed]; rfl)).elim
        · rfl

theorem lineEnd_append_cons (solid : isBlank c = false) (text rest : List Char) :
    lineEnd (text ++ c :: rest) = lineEnd text := by
  refine lineEnd_eq_of_append ?_
  rw [behindLine_append_cons solid, ← List.append_assoc, lineEnd_append_behindLine]

theorem afterPackage?_text (spaces : ∀ c ∈ lead, isSpace c = true) (s : PackageStatement)
    (rest : List Char) :
    ParserSupport.afterPackage? (lead ++ s.text ++ rest) = some (behindLine rest) := by
  obtain ⟨gap, named, ended⟩ := s.behind_keyword rest
  obtain ⟨-, behind⟩ := s.span_name rest
  have keyword : after? "package".toList ((lead ++ s.text ++ rest).dropWhile isSpace) =
      Option.some (s.gap ++ (s.name ++ (s.more ++ ';' :: rest))) := by
    rw [after?_eq_some_iff, List.append_assoc, List.dropWhile_append_of_pos spaces]
    unfold PackageStatement.text PackageStatement.stem
    simp only [List.append_assoc, List.singleton_append]
    exact List.dropWhile_cons_of_neg (by decide)
  have begins :
      ((s.name ++ (s.more ++ ';' :: rest)).head?.map isPackageChar).getD false = true := by
    obtain ⟨c, part, name⟩ := List.exists_cons_of_ne_nil s.name_ne_nil
    simp [name, s.isPackageChar_name c (by simp [name])]
  have stops : dropBlanks ((dropBlanks (s.gap ++ (s.name ++ (s.more ++ ';' :: rest)))).dropWhile
      isPackageChar) = ';' :: rest := by
    rw [named, behind, ended]
  rw [← named] at begins
  unfold ParserSupport.afterPackage?
  dsimp only
  split
  · next missing => cases missing.symm.trans keyword
  · next found =>
      cases found.symm.trans keyword
      refine (if_pos (Bool.and_eq_true_iff.mpr ⟨gap, begins⟩)).trans ?_
      split
      · next same =>
          cases same.symm.trans stops
          split
          · next line => exact congrArg some (behindLine_of_lineFeed line).symm
          · next more => exact congrArg some (behindLine_of_ne more).symm
      · next other => exact absurd stops (other rest)

theorem exists_of_afterPackage? (found : ParserSupport.afterPackage? text = some following) :
    ∃ (lead : List Char) (s : PackageStatement) (rest : List Char),
      text = lead ++ s.text ++ rest ∧ ∀ c ∈ lead, isSpace c = true := by
  unfold ParserSupport.afterPackage? at found
  dsimp only at found
  split at found
  · cases found
  · next behind keyword =>
      split at found
      · next reads =>
          split at found
          · next more ended =>
              obtain ⟨gap, begins⟩ := Bool.and_eq_true_iff.mp reads
              obtain ⟨s, whole, -⟩ := PackageStatement.exists_of_behind_keyword gap begins ended
              refine ⟨text.takeWhile isSpace, s, more, ?_, ?_⟩
              · rw [List.append_assoc, ← whole, ← after?_eq_some_iff.mp keyword]
                exact List.takeWhile_append_dropWhile.symm
              · exact fun c mem => List.all_eq_true.mp List.all_takeWhile c mem
          · cases found
      · cases found

/-! ### The first statement -/

theorem atLine_concat (before : List Char) : AtLine (before ++ [c]) ↔ c = '\n' := by
  refine ⟨?_, fun feed => .inr ⟨before, by rw [feed]⟩⟩
  rintro (none | ⟨line, same⟩)
  · simp at none
  · exact (List.cons.inj (List.append_inj' same rfl).2).1

theorem lineFeed_mem_of_atLine {done line : List Char} (atLine : AtLine (done ++ line))
    (some : line ≠ []) : '\n' ∈ line := by
  rcases List.eq_nil_or_concat line with rfl | ⟨front, c, rfl⟩
  · exact absurd rfl some
  · rw [List.concat_eq_append, ← List.append_assoc, atLine_concat] at atLine
    simp [atLine]

theorem packageIn?_of_here {name : List Char} (here : Grammar.packageHere? text = some name) :
    Grammar.packageIn? true text = some name := by
  cases text with
  | nil => cases here
  | cons c rest =>
      rw [Grammar.packageIn?, if_pos rfl, here]
      rfl

theorem exists_splitPackage?_of_here (here : ParserSupport.afterPackage? text = some following)
    (passed : List Char) :
    ∃ before, ParserSupport.splitPackage? true passed text = some (before, following) := by
  cases text with
  | nil => cases here
  | cons c rest =>
      rw [ParserSupport.splitPackage?, if_pos rfl, here]
      exact ⟨_, rfl⟩

/-- A text without the character ends before its first occurrence. -/
theorem exists_of_append_cons {front part behind : List Char}
    (same : front ++ c :: tail = part ++ c :: behind) (free : c ∉ part) :
    ∃ more, front ++ [c] = part ++ c :: more := by
  induction part generalizing front with
  | nil =>
      cases front with
      | nil => exact ⟨[], rfl⟩
      | cons d front =>
          rw [(List.cons.inj same).1]
          exact ⟨front ++ [c], rfl⟩
  | cons d part ih =>
      rw [List.mem_cons, not_or] at free
      cases front with
      | nil => exact absurd (List.cons.inj same).1 free.1
      | cons e front =>
          obtain ⟨rfl, rests⟩ := List.cons.inj same
          obtain ⟨more, rests⟩ := ih rests free.2
          exact ⟨more, congrArg (e :: ·) rests⟩

namespace FirstStatement

variable (first : FirstStatement lines lead s)

include first

/-- A statement that begins the line of the first one or a line before it is the first one. -/
theorem lead_eq {done line other behind : List Char} {t : PackageStatement}
    (parts : done ++ line = lines) (atLine : AtLine done) (blank : ∀ c ∈ other, isBlank c = true)
    (same : line ++ lead ++ (s.text ++ tail) = other ++ (t.text ++ behind)) :
    other = line ++ lead := by
  rcases List.append_eq_append_iff.mp same with ⟨more, longer, rests⟩ | ⟨more, shorter, rests⟩
  · cases more with
    | nil => simpa using longer
    | cons c more =>
        obtain ⟨keyword, begins⟩ := s.exists_text
        rw [begins] at rests
        obtain ⟨rfl, -⟩ := List.cons.inj rests
        have impossible := blank 'p' (by simp [longer])
        cases impossible
  -- Statements hold one semicolon, so one that begins before the first statement ends in it.
  · obtain ⟨inside, ended⟩ : ∃ inside, more ++ s.stem ++ [';'] = t.stem ++ ';' :: inside :=
      exists_of_append_cons (by simpa [PackageStatement.text] using rests.symm)
        t.semicolon_not_mem_stem
    have early := first.first (done ++ other) t inside
      (by
        unfold PackageStatement.text
        rw [← parts, List.append_assoc done, shorter]
        simpa using ended)
      ⟨done, other, rfl, atLine, blank⟩
    rw [← parts, List.append_assoc done, shorter] at early
    have none : more = [] := by
      simp only [List.length_append] at early
      exact List.eq_nil_of_length_eq_zero (by omega)
    rw [shorter, none, List.append_nil]

theorem packageIn?_of_line {done line : List Char} {atLine : Bool} (parts : done ++ line = lines)
    (begins : atLine = true ↔ AtLine done) :
    Grammar.packageIn? atLine (line ++ lead ++ (s.text ++ tail)) = some s.name := by
  have blank : ∀ c ∈ lead, isBlank c = true := fun c mem => isBlank_of_isSpace (first.spaces c mem)
  induction line generalizing done atLine with
  | nil =>
      rw [List.append_nil] at parts
      rw [begins.mpr (parts ▸ first.atLine)]
      refine packageIn?_of_here ?_
      rw [List.nil_append, ← List.append_assoc]
      exact packageHere?_text blank s tail
  | cons c line ih =>
      have later := @ih (done ++ [c]) (c == '\n') (by simpa using parts)
        (by rw [beq_iff_eq, atLine_concat])
      have whole : (c :: line) ++ lead ++ (s.text ++ tail) =
          c :: (line ++ lead ++ (s.text ++ tail)) := rfl
      rw [whole, Grammar.packageIn?, later]
      rcases here : (if atLine then Grammar.packageHere? (c :: (line ++ lead ++ (s.text ++ tail)))
        else none) with _ | name
      · exact Option.none_or
      · split at here
        · next atLine =>
            obtain ⟨other, t, behind, same, otherBlank, rfl⟩ := packageHere?_eq_some here
            rw [List.append_assoc other] at same
            rw [first.lead_eq parts (begins.mp atLine) otherBlank same, ← whole] at same
            rw [PackageStatement.name_eq_of_append (List.append_cancel_left same)]
            rfl
        · cases here

theorem splitPackage?_of_line {done line : List Char} {atLine : Bool} (parts : done ++ line = lines)
    (begins : atLine = true ↔ AtLine done) :
    ∃ before, ParserSupport.splitPackage? atLine done.reverse (line ++ lead ++ (s.text ++ tail)) =
      some (before, behindLine tail) := by
  induction line generalizing done atLine with
  | nil =>
      rw [List.append_nil] at parts
      rw [begins.mpr (parts ▸ first.atLine)]
      refine exists_splitPackage?_of_here ?_ _
      rw [List.nil_append, ← List.append_assoc]
      exact afterPackage?_text first.spaces s tail
  | cons c line ih =>
      have later := @ih (done ++ [c]) (c == '\n') (by simpa using parts)
        (by rw [beq_iff_eq, atLine_concat])
      rw [List.reverse_concat] at later
      have whole : (c :: line) ++ lead ++ (s.text ++ tail) =
          c :: (line ++ lead ++ (s.text ++ tail)) := rfl
      rw [whole, ParserSupport.splitPackage?]
      rcases here : (if atLine then ParserSupport.afterPackage?
        (c :: (line ++ lead ++ (s.text ++ tail))) else none) with _ | following
      · exact later
      · split at here
        · next atLine =>
            obtain ⟨other, t, behind, same, otherSpaces⟩ := exists_of_afterPackage? here
            rw [List.append_assoc other] at same
            have otherLead := first.lead_eq parts (begins.mp atLine)
              (fun d mem => isBlank_of_isSpace (otherSpaces d mem)) same
            have feed : '\n' ∈ c :: line :=
              lineFeed_mem_of_atLine (parts.symm ▸ first.atLine) (List.cons_ne_nil c line)
            have impossible := otherSpaces '\n' (otherLead ▸ List.mem_append_left lead feed)
            cases impossible
        · cases here

/-- The name that is read is that of the first statement, whatever follows it. -/
theorem packageIn?_eq (tail : List Char) :
    Grammar.packageIn? true (lines ++ lead ++ (s.text ++ tail)) = some s.name :=
  first.packageIn?_of_line rfl (iff_of_true rfl (.inl rfl))

/-- The text is split behind the line of the first statement, whatever follows it. -/
theorem splitPackage?_eq (tail : List Char) :
    ParserSupport.splitPackage? true [] (lines ++ lead ++ (s.text ++ tail)) =
      some (lines ++ lead ++ (s.text ++ lineEnd tail), behindLine tail) := by
  obtain ⟨before, split⟩ := @splitPackage?_of_line _ tail _ _ first [] lines true rfl
    (iff_of_true rfl (.inl rfl))
  obtain ⟨front, rfl, whole, -⟩ := ParserSupport.splitPackage?_eq_some split
  rw [List.reverse_nil] at split
  have tails := lineEnd_append_behindLine tail
  have parts : lines ++ lead ++ (s.text ++ lineEnd tail) ++ behindLine tail =
      before ++ behindLine tail := by
    rw [← whole, List.append_assoc _ (s.text ++ _), List.append_assoc s.text, tails]
  rw [List.append_cancel_right parts]
  exact split

omit first in
/-- The statement is the first one if its keyword is not found in front of it. -/
theorem of_forall_drop (atLine : AtLine lines) (spaces : ∀ c ∈ lead, isSpace c = true)
    (free : ∀ k < (lines ++ lead).length, ¬ "package".toList <+: (lines ++ lead ++ s.text).drop k) :
    FirstStatement lines lead s where
  atLine := atLine
  spaces := spaces
  first before other rest same _ := by
    refine Nat.le_of_not_lt fun early => free before.length early ?_
    rw [same, List.append_assoc, List.drop_left]
    unfold PackageStatement.text PackageStatement.stem
    simp only [List.append_assoc]
    exact List.prefix_append _ _

end FirstStatement

end NodeWeave
