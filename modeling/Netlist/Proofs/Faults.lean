import Mathlib
import Netlist.Proofs.Grammar

/-!
# The first fault of a text

A text that is not read has a fault, and the error tells of the first one. `Spoils` says which lines
no statement can be made of, `Misspells` which operations have an operand that is written like a
constant and is none. The faults of the first kind come first, wherever they stand; among faults of
one kind the one in the earliest line does, and in one operation the one in the earliest operand.

An error about a line has the number of that line, counted from one and with blank lines and
comments counted, and the text of the line without the blanks around it.
-/

namespace Netlist

variable {t source line word name : Text} {w : Width} {ws names lines earlier : List Text}
  {defined : Text → Prop} {fault : SyntaxFault} {st st' : Statement} {e : Error}

/-- The digits of a width or a depth. -/
def IsSize (digits : Text) : Prop := ∃ n, Numeral.IsDecimal digits n ∧ n < 2 ^ 31

/-- The rule that words break, where some names are defined already. A rule is broken only where
those before it are kept. -/
inductive Breaks (defined : Text → Prop) : List Text → SyntaxFault → Prop
  | shape {ws : List Text}
      (h : ∀ (dest word : Text) (args : List Text), ws ≠ dest :: "=" :: word :: args) :
      Breaks defined ws .shape
  | destination {dest word : Text} {args : List Text} (h : LooksConstant dest) :
      Breaks defined (dest :: "=" :: word :: args) (.constantDestination dest)
  | width {dest name digits : Text} {args : List Text} (hdest : ¬LooksConstant dest)
      (hname : quoteMark ∉ name) (h : ¬IsSize digits) :
      Breaks defined (dest :: "=" :: (name ++ quoteMark :: digits) :: args) (.width digits)
  | redefinition {dest word name : Text} {w : Width} {args : List Text}
      (hdest : ¬LooksConstant dest) (hname : WithWidth name w word) (h : defined dest) :
      Breaks defined (dest :: "=" :: word :: args) (.redefinition dest)
  | arity {dest word : Text} {w : Width} {args : List Text} (hdest : ¬LooksConstant dest)
      (hname : WithWidth "mem" w word) (hnew : ¬defined dest) (h : args.length ≠ 1) :
      Breaks defined (dest :: "=" :: word :: args) .memoryArity
  | depth {dest word digits : Text} {w : Width} (hdest : ¬LooksConstant dest)
      (hname : WithWidth "mem" w word) (hnew : ¬defined dest) (h : ¬IsSize digits) :
      Breaks defined [dest, "=", word, digits] (.depth digits)
  | opcode {dest word name : Text} {w : Width} {args : List Text} (hdest : ¬LooksConstant dest)
      (hname : WithWidth name w word) (hnew : ¬defined dest) (hmem : name ≠ "mem")
      (h : ∀ opcode ∈ Opcode.assigned, opcode.name ≠ name) :
      Breaks defined (dest :: "=" :: word :: args) (.opcode name)

theorem decimal?_eq_none_iff {digits : Text} :
    Numeral.decimal? widthLimit digits = none ↔ ¬IsSize digits := by
  rw [Option.eq_none_iff_forall_ne_some, IsSize, not_exists]
  exact forall_congr' fun n => not_congr decimal?_widthLimit

theorem splitWidth_eq_error {digits : Text} (hname : quoteMark ∉ name) (h : ¬IsSize digits) :
    splitWidth (name ++ quoteMark :: digits) = .error (.width digits) := by
  rw [splitWidth, List.dropWhile_append_of_pos (all_ne_quoteMark hname)]
  simp [decimal?_eq_none_iff.2 h]

theorem exists_withWidth_or (word : Text) : (∃ name w, WithWidth name w word) ∨
    ∃ name digits, word = name ++ quoteMark :: digits ∧ quoteMark ∉ name ∧ ¬IsSize digits := by
  by_cases hquote : quoteMark ∈ word
  · obtain ⟨name, digits, rfl, hname⟩ := List.eq_append_cons_of_mem hquote
    by_cases hsize : IsSize digits
    · obtain ⟨n, hn, hlt⟩ := hsize
      exact .inl ⟨name, n, .marked hname hn hlt⟩
    · exact .inr ⟨name, digits, rfl, hname, hsize⟩
  · exact .inl ⟨word, .unknown, .bare hquote⟩

theorem ofName?_eq_none (h : ∀ opcode ∈ Opcode.assigned, opcode.name ≠ name) :
    Opcode.ofName? name = none := by
  rw [Option.eq_none_iff_forall_ne_some]
  intro opcode ho
  obtain ⟨hmem, hname⟩ := Opcode.ofName?_eq_some.1 ho
  exact h opcode hmem hname

theorem ofWords_of_shape
    (h : ∀ (dest word : Text) (args : List Text), ws ≠ dest :: "=" :: word :: args) :
    Assignment.ofWords ws = .error .shape := by
  unfold Assignment.ofWords
  split
  · next dest equals word args =>
    rw [if_pos]
    rintro rfl
    exact h dest word args rfl
  · rfl

theorem ofText_of_breaks (h : Breaks (· ∈ names) (Text.words t) fault) :
    Statement.ofText names t = .error fault := by
  have hassign (a : Assignment) (ha : Assignment.ofWords (Text.words t) = .ok a) :
      Statement.ofText names t =
        if a.dest ∈ names then .error (.redefinition a.dest) else a.statement := by
    rw [Statement.ofText, Assignment.ofText, ha]
    rfl
  have herror (fault : SyntaxFault) (ha : Assignment.ofWords (Text.words t) = .error fault) :
      Statement.ofText names t = .error fault := by
    rw [Statement.ofText, Assignment.ofText, ha]
    rfl
  generalize Text.words t = ws at h hassign herror
  cases h with
  | shape h => exact herror _ (ofWords_of_shape h)
  | destination h =>
    apply herror
    simp [Assignment.ofWords, isLiteral_iff.2 h]
  | width hdest hname h =>
    apply herror
    simp [Assignment.ofWords, not_looksConstant_iff.2 hdest, splitWidth_eq_error hname h]
  | redefinition hdest hname h =>
    rw [hassign _ (ofWords_of_withWidth hdest hname), if_pos h]
  | @arity _ _ _ args hdest hname hnew h =>
    rw [hassign _ (ofWords_of_withWidth hdest hname), if_neg hnew]
    cases args with
    | nil => rfl
    | cons digits args =>
      cases args with
      | nil => exact absurd rfl h
      | cons => rfl
  | depth hdest hname hnew h =>
    rw [hassign _ (ofWords_of_withWidth hdest hname), if_neg hnew]
    simp [Assignment.statement, decimal?_eq_none_iff.2 h]
  | opcode hdest hname hnew hmem h =>
    rw [hassign _ (ofWords_of_withWidth hdest hname), if_neg hnew]
    simp [Assignment.statement, hmem, ofName?_eq_none h]

/-- Words that assign to a new name are a memory or an operation, or break a rule about these. -/
theorem breaks_or_states_of_new {dest : Text} {args : List Text} (hdest : ¬LooksConstant dest)
    (hname : WithWidth name w word) (hnew : ¬defined dest) :
    (∃ fault, Breaks defined (dest :: "=" :: word :: args) fault) ∨
      ∃ st, States (dest :: "=" :: word :: args) st ∧ ¬defined st.dest := by
  by_cases hmem : name = "mem"
  · subst hmem
    by_cases hargs : args.length = 1
    · obtain ⟨digits, rfl⟩ := List.length_eq_one_iff.1 hargs
      by_cases hsize : IsSize digits
      · obtain ⟨n, hn, hlt⟩ := hsize
        exact .inr ⟨_, .memory hdest hname hn hlt, hnew⟩
      · exact .inl ⟨_, .depth hdest hname hnew hsize⟩
    · exact .inl ⟨_, .arity hdest hname hnew hargs⟩
  · by_cases hopcode : ∃ opcode ∈ Opcode.assigned, opcode.name = name
    · obtain ⟨opcode, hassigned, rfl⟩ := hopcode
      exact .inr ⟨_, .operation hdest hassigned hname, hnew⟩
    · have hunknown (opcode : Opcode) (ho : opcode ∈ Opcode.assigned) : opcode.name ≠ name :=
        fun hname => hopcode ⟨opcode, ho, hname⟩
      exact .inl ⟨_, .opcode hdest hname hnew hmem hunknown⟩

theorem breaks_or_states (defined : Text → Prop) (ws : List Text) :
    (∃ fault, Breaks defined ws fault) ∨ ∃ st, States ws st ∧ ¬defined st.dest := by
  by_cases hshape : ∃ (dest word : Text) (args : List Text), ws = dest :: "=" :: word :: args
  · obtain ⟨dest, word, args, rfl⟩ := hshape
    by_cases hdest : LooksConstant dest
    · exact .inl ⟨_, .destination hdest⟩
    · rcases exists_withWidth_or word with ⟨name, w, hname⟩ | ⟨name, digits, rfl, hname, hsize⟩
      · by_cases hnew : defined dest
        · exact .inl ⟨_, .redefinition hdest hname hnew⟩
        · exact breaks_or_states_of_new hdest hname hnew
      · exact .inl ⟨_, .width hdest hname hsize⟩
  · exact .inl ⟨_, .shape fun dest word args heq => hshape ⟨dest, word, args, heq⟩⟩

/-- What is wrong with a word that is written like a constant and is none. -/
inductive Misspelt : Text → SyntaxFault → Prop
  | width {name digits : Text} (hlooks : LooksConstant (name ++ quoteMark :: digits))
      (hname : quoteMark ∉ name) (h : ¬IsSize digits) :
      Misspelt (name ++ quoteMark :: digits) (.width digits)
  | value {word value : Text} {w : Width} (hlooks : LooksConstant word)
      (hvalue : WithWidth value w word) (h : ∀ n, ¬SpellsInteger value n) :
      Misspelt word (.constant value)

theorem Misspelt.looksConstant (h : Misspelt word fault) : LooksConstant word := by
  cases h with
  | width hlooks => exact hlooks
  | value hlooks => exact hlooks

theorem literal_of_misspelt (h : Misspelt word fault) : literal word = .error fault := by
  cases h with
  | width _ hname hsize =>
    rw [literal, splitWidth_eq_error hname hsize]
    rfl
  | @value _ value _ _ hvalue hspells =>
    have hnone : magnitude? value = none := by
      rw [Option.eq_none_iff_forall_ne_some]
      exact fun n hn => hspells n (magnitude?_eq_some_iff.1 hn)
    rw [literal, splitWidth_iff.2 hvalue]
    simp [bind, Except.bind, hnone]

theorem exists_literal_or (hlooks : LooksConstant word) :
    (∃ v, literal word = .ok v) ∨ ∃ fault, Misspelt word fault := by
  rcases exists_withWidth_or word with ⟨value, w, hvalue⟩ | ⟨name, digits, rfl, hname, hsize⟩
  · by_cases hspells : ∃ n, SpellsInteger value n
    · obtain ⟨n, hn⟩ := hspells
      exact .inl ⟨_, literal_iff.2 ⟨w, n, ⟨value, hvalue, hn⟩, rfl⟩⟩
    · exact .inr ⟨_, .value hlooks hvalue (not_exists.1 hspells)⟩
  · exact .inr ⟨_, .width hlooks hname hsize⟩

theorem literal_eq_error_iff (hlooks : LooksConstant word) :
    literal word = .error fault ↔ Misspelt word fault := by
  refine ⟨fun h => ?_, literal_of_misspelt⟩
  rcases exists_literal_or hlooks with ⟨v, hv⟩ | ⟨fault', hfault⟩
  · rw [hv] at h
    cases h
  · rw [literal_of_misspelt hfault] at h
    cases h
    exact hfault

variable {nodes : List Node}

theorem argument_eq_error_iff (hno : ∀ u ∈ nodes, isLiteral u.name = false) :
    argument nodes word = .error fault ↔ Misspelt word fault := by
  by_cases hlooks : LooksConstant word
  · rw [argument_of_isLiteral hno (isLiteral_iff.2 hlooks), literal_eq_error_iff hlooks]
  · constructor
    · intro h
      rw [argument, not_looksConstant_iff.2 hlooks] at h
      split at h
      · cases h
      · cases h
    · intro h
      exact absurd h.looksConstant hlooks

/-- The operand that is wrong in an operation is the first one that is misspelt. -/
theorem operation?_eq_error_iff (hno : ∀ u ∈ nodes, isLiteral u.name = false) {s : Located} :
    operation? nodes s = .error e ↔ ∃ before word after fault,
      s.statement.arguments = before ++ word :: after ∧
        (∀ x ∈ before, ∀ fault, ¬Misspelt x fault) ∧ Misspelt word fault ∧
          e = .malformed ⟨s.line, s.source, fault⟩ := by
  have hmap : operation? nodes s = .error e ↔ ∃ fault,
      s.statement.arguments.mapM (argument nodes) = .error fault ∧
        e = .malformed ⟨s.line, s.source, fault⟩ := by
    rw [operation?]
    cases s.statement with
    | memory dest width depth => simp [Statement.arguments, pure, Except.pure]
    | operation dest opcode width args =>
      dsimp only [Statement.arguments]
      cases args.mapM (argument nodes) with
      | error fault => simp [Located.fail, eq_comm]
      | ok sources => simp
  simp only [hmap, mapM_eq_error, exists_eq_ok_iff, ne_eq, argument_eq_error_iff hno]
  constructor
  · rintro ⟨fault, ⟨before, word, after, hargs, hbefore, hword⟩, rfl⟩
    exact ⟨before, word, after, fault, hargs, hbefore, hword, rfl⟩
  · rintro ⟨before, word, after, fault, hargs, hbefore, hword, rfl⟩
    exact ⟨fault, ⟨before, word, after, hargs, hbefore, hword⟩, rfl⟩

/-- A line that is neither blank nor a comment, with its text without the blanks around it and its
words. -/
def Content (line source : Text) (ws : List Text) : Prop :=
  ∃ body, WithoutReturn line body ∧ ¬Text.Skipped body ∧ Text.Trims body source ∧
    Text.Spaced body ws

theorem content_iff : Content line source ws ↔
    content? line = some source ∧ Text.words source = ws := by
  constructor
  · rintro ⟨body, hbody, hskip, htrims, hws⟩
    rw [← withoutReturn_iff.1 hbody] at hskip htrims hws
    have hsource := content?_eq_some_iff.2 ⟨hskip, htrims⟩
    rw [words_content? hsource]
    exact ⟨hsource, Text.words_eq_iff.2 hws⟩
  · rintro ⟨hsource, rfl⟩
    obtain ⟨hskip, htrims⟩ := content?_eq_some_iff.1 hsource
    refine ⟨_, withoutReturn_iff.2 rfl, hskip, htrims, ?_⟩
    rw [words_content? hsource]
    exact Text.spaced_words _

def Defines (line name : Text) : Prop :=
  ∃ source ws st, Content line source ws ∧ States ws st ∧ st.dest = name

/-- The error about a line that no statement can be made of, behind the lines before it. -/
inductive Spoils (earlier : List Text) : Text → Error → Prop
  | long {line : Text} (h : 2 ^ 24 ≤ line.length) : Spoils earlier line .lineTooLong
  | malformed {line source : Text} {ws : List Text} {fault : SyntaxFault}
      (hshort : line.length < 2 ^ 24) (hcontent : Content line source ws)
      (h : Breaks (fun name => ∃ l ∈ earlier, Defines l name) ws fault) :
      Spoils earlier line (.malformed ⟨earlier.length + 1, source, fault⟩)

/-- The error about a line with an operation of which an operand is misspelt. It is about the first
such operand. -/
inductive Misspells (earlier : List Text) : Text → Error → Prop
  | operand {line source word : Text} {ws before after : List Text} {st : Statement}
      {fault : SyntaxFault} (hcontent : Content line source ws) (hst : States ws st)
      (hargs : st.arguments = before ++ word :: after)
      (hbefore : ∀ x ∈ before, ∀ fault, ¬Misspelt x fault) (h : Misspelt word fault) :
      Misspells earlier line (.malformed ⟨earlier.length + 1, source, fault⟩)

theorem States.unique (h : States ws st) (h' : States ws st') : st = st' := by
  obtain ⟨a, ha, hst⟩ := states_iff.2 h
  obtain ⟨a', ha', hst'⟩ := states_iff.2 h'
  cases ha.symm.trans ha'
  cases hst.symm.trans hst'
  rfl

theorem Content.unique {source' : Text} {ws' : List Text} (h : Content line source ws)
    (h' : Content line source' ws') : source = source' ∧ ws = ws' := by
  obtain ⟨hsource, rfl⟩ := content_iff.1 h
  obtain ⟨hsource', rfl⟩ := content_iff.1 h'
  cases hsource.symm.trans hsource'
  exact ⟨rfl, rfl⟩

theorem Content.defines_iff (hcontent : Content line source ws) (hst : States ws st) :
    Defines line name ↔ st.dest = name := by
  constructor
  · rintro ⟨source', ws', st', hcontent', hst', hname⟩
    obtain ⟨-, rfl⟩ := hcontent.unique hcontent'
    rw [hst.unique hst', hname]
  · rintro rfl
    exact ⟨source, ws, st, hcontent, hst, rfl⟩

section First

variable {R : List Text → Text → Error → Prop}

/-- No line has an error of a kind. -/
def Absent (R : List Text → Text → Error → Prop) (lines : List Text) : Prop :=
  ∀ earlier line e, earlier ++ [line] <+: lines → ¬R earlier line e

/-- The first line that has an error of a kind, with the lines before it. -/
structure First (R : List Text → Text → Error → Prop) (lines earlier : List Text) (line : Text)
    (e : Error) : Prop where
  place : earlier ++ [line] <+: lines
  absent : Absent R earlier
  fault : R earlier line e

theorem absent_nil : Absent R [] := by
  intro earlier line e hplace
  simp at hplace

theorem concat_prefix_concat_iff {line' : Text} : earlier ++ [line'] <+: lines ++ [line] ↔
    (earlier = lines ∧ line' = line) ∨ earlier ++ [line'] <+: lines := by
  simp [List.prefix_concat_iff]

theorem absent_concat : Absent R (lines ++ [line]) ↔
    Absent R lines ∧ ∀ e, ¬R lines line e := by
  constructor
  · intro h
    refine ⟨fun earlier line' e hplace => h earlier line' e (hplace.trans ⟨_, rfl⟩), ?_⟩
    exact fun e => h lines line e (List.prefix_refl _)
  · rintro ⟨hlines, hline⟩ earlier line' e hplace
    rcases concat_prefix_concat_iff.1 hplace with ⟨rfl, rfl⟩ | hplace
    · exact hline e
    · exact hlines earlier line' e hplace

theorem absent_or_first (R : List Text → Text → Error → Prop) (lines : List Text) :
    Absent R lines ∨ ∃ e earlier line, First R lines earlier line e := by
  induction lines using List.reverseRecOn with
  | nil => exact .inl absent_nil
  | append_singleton lines line ih =>
    rcases ih with habsent | ⟨e, earlier, line', h⟩
    · by_cases hline : ∃ e, R lines line e
      · obtain ⟨e, hline⟩ := hline
        exact .inr ⟨e, lines, line, List.prefix_refl _, habsent, hline⟩
      · exact .inl (absent_concat.2 ⟨habsent, not_exists.1 hline⟩)
    · exact .inr ⟨e, earlier, line', h.place.trans ⟨_, rfl⟩, h.absent, h.fault⟩

theorem absent_iff_not_first :
    Absent R lines ↔ ∀ e, ¬∃ earlier line, First R lines earlier line e := by
  constructor
  · rintro habsent e ⟨earlier, line, h⟩
    exact habsent earlier line e h.place h.fault
  · intro h
    rcases absent_or_first R lines with habsent | ⟨e, hfirst⟩
    · exact habsent
    · exact absurd hfirst (h e)

theorem exists_first_concat :
    (∃ earlier line', First R (lines ++ [line]) earlier line' e) ↔
      (∃ earlier line', First R lines earlier line' e) ∨ Absent R lines ∧ R lines line e := by
  constructor
  · rintro ⟨earlier, line', hplace, habsent, hfault⟩
    rcases concat_prefix_concat_iff.1 hplace with ⟨rfl, rfl⟩ | hplace
    · exact .inr ⟨habsent, hfault⟩
    · exact .inl ⟨earlier, line', hplace, habsent, hfault⟩
  · rintro (⟨earlier, line', h⟩ | ⟨habsent, hfault⟩)
    · exact ⟨earlier, line', h.place.trans ⟨_, rfl⟩, h.absent, h.fault⟩
    · exact ⟨lines, line, List.prefix_refl _, habsent, hfault⟩

end First

/-- The statements of lines with their places, the last one first. -/
inductive Places : List Text → List Located → Prop
  | nil : Places [] []
  | skipped {lines : List Text} {line : Text} {read : List Located} (h : Places lines read)
      (hskip : ∀ source ws, ¬Content line source ws) : Places (lines ++ [line]) read
  | statement {lines ws : List Text} {line source : Text} {st : Statement} {read : List Located}
      (h : Places lines read) (hcontent : Content line source ws) (hst : States ws st) :
      Places (lines ++ [line]) (⟨lines.length + 1, source, st⟩ :: read)

variable {read : List Located}

theorem Places.mem_dest_iff (h : Places lines read) :
    name ∈ read.map Located.dest ↔ ∃ l ∈ lines, Defines l name := by
  induction h with
  | nil => simp
  | @skipped lines line read _ hskip ih =>
    have hline : ¬Defines line name :=
      fun ⟨source, ws, _, hcontent, _⟩ => hskip source ws hcontent
    simp [ih, or_and_right, exists_or, hline]
  | statement _ hcontent hst ih =>
    simp [ih, or_and_right, exists_or, hcontent.defines_iff hst, Located.dest, eq_comm, or_comm]

theorem Places.readLines_of_spoils (h : Places earlier read) (hline : Spoils earlier line e)
    (rest : List Text) : readLines earlier.length read (line :: rest) = .error e := by
  have hdefined : (fun name => ∃ l ∈ earlier, Defines l name) = (· ∈ read.map Located.dest) :=
    funext fun name => propext h.mem_dest_iff.symm
  rw [readLines]
  cases hline with
  | long hlong => exact if_pos hlong
  | malformed hshort hcontent hbreaks =>
    have hlimit : ¬lineLimit ≤ line.length := Nat.not_le.2 hshort
    obtain ⟨hsource, rfl⟩ := content_iff.1 hcontent
    rw [hdefined] at hbreaks
    rw [if_neg hlimit, hsource]
    simp only [ofText_of_breaks hbreaks]

/-- A line that is not spoiled is read, whatever stands behind it. -/
theorem Places.exists_readLines_cons (h : Places earlier read)
    (hline : ∀ e, ¬Spoils earlier line e) : ∃ read', Places (earlier ++ [line]) read' ∧
      ∀ rest, readLines earlier.length read (line :: rest) =
        readLines (earlier ++ [line]).length read' rest := by
  have hshort : line.length < 2 ^ 24 := Nat.lt_of_not_le fun hlong => hline _ (.long hlong)
  have hlimit : ¬lineLimit ≤ line.length := Nat.not_le.2 hshort
  simp only [readLines, if_neg hlimit, List.length_append, List.length_singleton]
  cases hsource : content? line with
  | none =>
    refine ⟨read, .skipped h fun source ws hcontent => ?_, fun rest => rfl⟩
    rw [(content_iff.1 hcontent).1] at hsource
    cases hsource
  | some source =>
    have hcontent : Content line source (Text.words source) := content_iff.2 ⟨hsource, rfl⟩
    rcases breaks_or_states (fun name => ∃ l ∈ earlier, Defines l name) (Text.words source) with
      ⟨fault, hfault⟩ | ⟨st, hst, hnew⟩
    · exact absurd (.malformed hshort hcontent hfault) (hline _)
    · rw [← h.mem_dest_iff] at hnew
      refine ⟨_, .statement h hcontent hst, fun rest => ?_⟩
      simp only [ofText_iff.2 ⟨hst, hnew⟩]

theorem Absent.exists_readLines (h : Absent Spoils lines) : ∃ read, Places lines read ∧
    ∀ rest, readLines 0 [] (lines ++ rest) = readLines lines.length read rest := by
  -- lines are added at the end, because an error depends on what stands before its line
  induction lines using List.reverseRecOn with
  | nil => exact ⟨[], .nil, fun rest => rfl⟩
  | append_singleton lines line ih =>
    obtain ⟨hlines, hline⟩ := absent_concat.1 h
    obtain ⟨read, hread, hrest⟩ := ih hlines
    obtain ⟨read', hread', hrest'⟩ := hread.exists_readLines_cons hline
    refine ⟨read', hread', fun rest => ?_⟩
    rw [List.append_assoc, hrest]
    exact hrest' rest

theorem First.readLines_eq (h : First Spoils lines earlier line e) :
    readLines 0 [] lines = .error e := by
  obtain ⟨rest, rfl⟩ := h.place
  obtain ⟨read, hread, hrest⟩ := h.absent.exists_readLines
  rw [List.append_assoc, hrest]
  exact hread.readLines_of_spoils h.fault rest

theorem Places.not_isLiteral (h : Places lines read) :
    ∀ u ∈ read.reverse.map (·.statement.node), isLiteral u.name = false := by
  simp only [List.forall_mem_map, List.mem_reverse, Statement.name_node, not_looksConstant_iff]
  induction h with
  | nil => exact List.forall_mem_nil _
  | skipped _ _ ih => exact ih
  | statement _ _ hst ih => exact List.forall_mem_cons.2 ⟨hst.not_looksConstant, ih⟩

theorem Content.misspells_iff (hcontent : Content line source ws) (hst : States ws st)
    (hno : ∀ u ∈ nodes, isLiteral u.name = false) :
    operation? nodes ⟨lines.length + 1, source, st⟩ = .error e ↔ Misspells lines line e := by
  rw [operation?_eq_error_iff hno]
  constructor
  · rintro ⟨before, word, after, fault, hargs, hbefore, hword, rfl⟩
    exact .operand hcontent hst hargs hbefore hword
  · intro h
    cases h with
    | operand hcontent' hst' hargs hbefore hword =>
      obtain ⟨rfl, rfl⟩ := hcontent.unique hcontent'
      rw [hst.unique hst']
      exact ⟨_, _, _, _, hargs, hbefore, hword, rfl⟩

theorem Places.mapM_eq_error_iff (h : Places lines read)
    (hno : ∀ u ∈ nodes, isLiteral u.name = false) :
    read.reverse.mapM (operation? nodes) = .error e ↔
      ∃ earlier line, First Misspells lines earlier line e := by
  induction h generalizing e with
  | nil =>
    have hnone := absent_iff_not_first.1 (absent_nil (R := Misspells)) e
    simp [pure, Except.pure, hnone]
  | @skipped lines line read _ hskip ih =>
    have hline : ¬Misspells lines line e := fun h => by
      cases h with
      | operand hcontent => exact hskip _ _ hcontent
    rw [exists_first_concat, ih]
    simp [hline]
  | statement _ hcontent hst ih =>
    rw [List.reverse_cons, mapM_concat_eq_error, exists_first_concat, ih, exists_eq_ok_iff,
      absent_iff_not_first, hcontent.misspells_iff hst hno]
    simp only [ne_eq, ih]

namespace Graph

theorem parse_of_first (hlines : Text.Lined t lines) (h : First Spoils lines earlier line e) :
    parse t = .error e := by
  rw [parse, statements, Text.lines_eq_iff.2 hlines, h.readLines_eq]
  rfl

theorem parse_eq_error_iff (hlines : Text.Lined t lines) (h : Absent Spoils lines) :
    parse t = .error e ↔ ∃ earlier line, First Misspells lines earlier line e := by
  obtain ⟨read, hread, hrest⟩ := h.exists_readLines
  have hstatements : statements t = .ok read.reverse := by
    rw [statements, Text.lines_eq_iff.2 hlines, ← List.append_nil lines, hrest, readLines]
  have hparse : parse t = ofStatements read.reverse := by
    rw [parse, hstatements]
    rfl
  rw [hparse, ofStatements, bind_eq_error, hread.mapM_eq_error_iff hread.not_isLiteral]
  simp [pure, Except.pure]

/-- An error about a line comes before one about an operand, wherever the two stand, and among
errors of one kind the first comes. An error about a line is the same whatever stands behind it. -/
theorem first_error_is_reported (hlines : Text.Lined t lines) :
    (∀ e, parse t = .error e ↔ (∃ earlier line, First Spoils lines earlier line e) ∨
        Absent Spoils lines ∧ ∃ earlier line, First Misspells lines earlier line e) ∧
      ∀ e earlier line, First Spoils lines earlier line e → ∀ t' lines', Text.Lined t' lines' →
        earlier ++ [line] <+: lines' → parse t' = .error e := by
  constructor
  · intro e
    rcases absent_or_first Spoils lines with habsent | ⟨e', earlier, line, hfirst⟩
    · have hnone := absent_iff_not_first.1 habsent e
      rw [parse_eq_error_iff hlines habsent]
      simp only [hnone, habsent, false_or, true_and]
    · constructor
      · intro h
        rw [parse_of_first hlines hfirst] at h
        cases h
        exact .inl ⟨earlier, line, hfirst⟩
      · rintro (⟨earlier', line', hfirst'⟩ | ⟨habsent, -⟩)
        · exact parse_of_first hlines hfirst'
        · exact absurd hfirst.fault (habsent earlier line e' hfirst.place)
  · intro e earlier line hfirst t' lines' hlines' hplace
    exact parse_of_first hlines' ⟨hplace, hfirst.absent, hfirst.fault⟩

/-- Two operands of the sum and one of the difference look like constants and are none. -/
def misspelt : Text := "# a sum\n\n  s = add'8 x 0x 1'z \nd = sub'8 s 0b\n"

/-- Behind the two, the depth of a memory is no number and an opcode is not known. -/
def spoiled : Text := misspelt ++ "m = mem'8 d\ny = frob s\n"

theorem spoiled_first_error_is_reported :
    (parse misspelt = .error (.malformed ⟨3, "s = add'8 x 0x 1'z", .constant "0x"⟩) ∧
      Absent Spoils (Text.lines misspelt) ∧
        ∃ earlier line, First Misspells (Text.lines misspelt) earlier line
          (.malformed ⟨3, "s = add'8 x 0x 1'z", .constant "0x"⟩)) ∧
    parse spoiled = .error (.malformed ⟨5, "m = mem'8 d", .depth "d"⟩) ∧
      ∃ earlier line, First Spoils (Text.lines spoiled) earlier line
          (.malformed ⟨5, "m = mem'8 d", .depth "d"⟩) ∧
        ∀ t lines, Text.Lined t lines → earlier ++ [line] <+: lines →
          parse t = .error (.malformed ⟨5, "m = mem'8 d", .depth "d"⟩) := by
  have hmisspelt : parse misspelt =
      .error (.malformed ⟨3, "s = add'8 x 0x 1'z", .constant "0x"⟩) := by cbv
  have hspoiled : parse spoiled = .error (.malformed ⟨5, "m = mem'8 d", .depth "d"⟩) := by cbv
  have hlines (n : Int) (source line value : Text) (earlier : List Text) :
      ¬Spoils earlier line (.malformed ⟨n, source, .constant value⟩) := by
    intro h
    cases h with
    | malformed _ _ h => cases h
  have hoperands (n : Int) (source line digits : Text) (earlier : List Text) :
      ¬Misspells earlier line (.malformed ⟨n, source, .depth digits⟩) := by
    intro h
    cases h with
    | operand _ _ _ _ h => cases h
  refine ⟨⟨hmisspelt, ?_⟩, hspoiled, ?_⟩
  · obtain ⟨herror, -⟩ := first_error_is_reported (Text.lined_lines misspelt)
    rcases (herror _).1 hmisspelt with ⟨earlier, line, hfirst⟩ | h
    · exact (hlines _ _ _ _ _ hfirst.fault).elim
    · exact h
  · obtain ⟨herror, hbehind⟩ := first_error_is_reported (Text.lined_lines spoiled)
    rcases (herror _).1 hspoiled with ⟨earlier, line, hfirst⟩ | ⟨-, earlier, line, hfirst⟩
    · exact ⟨earlier, line, hfirst, hbehind _ earlier line hfirst⟩
    · exact (hoperands _ _ _ _ _ hfirst.fault).elim

end Graph

end Netlist
