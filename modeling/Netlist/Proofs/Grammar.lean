import Mathlib
import Netlist.Proofs.Spacing
import Netlist.Proofs.Spelling
import Netlist.Proofs.Stated

/-!
# The language of circuits

`Says` states which texts describe a circuit, and by which statements, without a reader: a text is
lines, a line is blank or a comment or a list of words, the words are a statement, the statements
define different names, and operands that are written like constants are constants. `Denotes` states
what node a name stands for next to given statements.

A text is read exactly if it says something. The circuit then has the operations of the statements,
in their order, and its nodes are what their names stand for.
-/

namespace Netlist

variable {t word name : Text} {w : Width} {ws lines names : List Text} {st : Statement}
  {sts : List Statement} {v : Node}

/-- A digit is at the front of the word, or behind a minus sign at its front. -/
def LooksConstant (word : Text) : Prop :=
  ∃ b t, Text.isDigit b = true ∧ (word = b :: t ∨ word = 45 :: b :: t)

theorem isLiteral_iff : isLiteral word = true ↔ LooksConstant word := by
  have hminus : Text.isDigit 45 = false := by decide
  constructor
  · intro h
    unfold isLiteral at h
    split at h
    · next b t => exact ⟨b, t, h, .inr rfl⟩
    · next b t _ => exact ⟨b, t, h, .inl rfl⟩
    · cases h
  · rintro ⟨b, t, hb, rfl | rfl⟩
    · rw [isLiteral]
      · exact hb
      · rintro c t ⟨⟩
        rw [hminus] at hb
        cases hb
    · exact hb

/-- A name with a width behind a quote or with none. -/
inductive WithWidth (name : Text) : Width → Text → Prop
  | bare (h : quoteMark ∉ name) : WithWidth name .unknown name
  | marked {digits : Text} {n : Nat} (h : quoteMark ∉ name) (hn : Numeral.IsDecimal digits n)
      (hlt : n < 2 ^ 31) : WithWidth name n (name ++ quoteMark :: digits)

theorem decimal?_widthLimit {digits : Text} {n : Nat} :
    Numeral.decimal? widthLimit digits = some n ↔ Numeral.IsDecimal digits n ∧ n < 2 ^ 31 := by
  rw [Numeral.decimal?_eq_some_iff, Nat.lt_iff_le_pred (by decide)]
  rfl

theorem all_ne_quoteMark (h : quoteMark ∉ name) : ∀ b ∈ name, (b != quoteMark) = true :=
  fun _ hb => bne_iff_ne.2 fun he => h (he ▸ hb)

theorem splitWidth_bare (h : quoteMark ∉ name) : splitWidth name = .ok (name, .unknown) := by
  rw [splitWidth, List.dropWhile_eq_nil_iff.2 (all_ne_quoteMark h)]

theorem splitWidth_marked_iff {digits x : Text} (h : quoteMark ∉ x) :
    splitWidth (x ++ quoteMark :: digits) = .ok (name, w) ↔
      ∃ n : Nat, (Numeral.IsDecimal digits n ∧ n < 2 ^ 31) ∧ x = name ∧ (n : Width) = w := by
  have hkeep := all_ne_quoteMark h
  simp only [← decimal?_widthLimit]
  rw [splitWidth, List.dropWhile_append_of_pos hkeep, List.takeWhile_append_of_pos hkeep]
  cases hn : Numeral.decimal? widthLimit digits <;> simp [hn]

theorem splitWidth_iff : splitWidth word = .ok (name, w) ↔ WithWidth name w word := by
  constructor
  · intro h
    by_cases hquote : quoteMark ∈ word
    · obtain ⟨x, digits, rfl, hx⟩ := List.eq_append_cons_of_mem hquote
      obtain ⟨n, ⟨hn, hlt⟩, rfl, rfl⟩ := (splitWidth_marked_iff hx).1 h
      exact .marked hx hn hlt
    · rw [splitWidth_bare hquote] at h
      cases h
      exact .bare hquote
  · intro h
    cases h with
    | bare h => exact splitWidth_bare h
    | marked h hn hlt => exact (splitWidth_marked_iff h).2 ⟨_, ⟨hn, hlt⟩, rfl, rfl⟩

/-- A word that stands for a constant of a given value, with a width of its own or none. -/
def IsConstant (word : Text) (w : Width) (n : Nat) : Prop :=
  ∃ value, WithWidth value w word ∧ SpellsInteger value n

/-- A constant without a width of its own has as many bits as its value, and at least one. -/
def constantWidth (w : Width) (n : Nat) : Width := if w = .unknown then n.log2 + 1 else w

theorem WithWidth.constantWidth_eq (h : WithWidth name w word) (n : Nat) :
    (if w.isKnown then w else if n = 0 then 1 else (Numeral.bitLength n : Width)) =
      constantWidth w n := by
  have hbits : (if n = 0 then 1 else (Numeral.bitLength n : Width)) = n.log2 + 1 := by
    rw [Numeral.bitLength]
    split_ifs with hn
    · subst hn
      rfl
    · rfl
  rw [hbits, constantWidth]
  cases h with
  | bare => rfl
  | @marked _ m =>
    have hknown : Width.isKnown m = true := by simp [Width.isKnown]
    have hne : (m : Width) ≠ .unknown := by
      intro he
      rw [he] at hknown
      cases hknown
    rw [if_pos hknown, if_neg hne]

theorem literal_iff : literal word = .ok v ↔ ∃ w n, IsConstant word w n ∧
    v = { name := word, width := constantWidth w n, kind := .constant } := by
  constructor
  · intro h
    obtain ⟨value, w, n, hsplit, hn, rfl⟩ := literal_eq_ok h
    have hword := splitWidth_iff.1 hsplit
    refine ⟨w, n, ⟨value, hword, magnitude?_eq_some_iff.1 hn⟩, ?_⟩
    rw [← hword.constantWidth_eq n]
  · rintro ⟨w, n, ⟨value, hword, hn⟩, rfl⟩
    refine bind_eq_ok.2 ⟨_, splitWidth_iff.2 hword, ?_⟩
    simp only [magnitude?_eq_some_iff.2 hn, ← hword.constantWidth_eq n]

/-- The words of a statement. -/
inductive States : List Text → Statement → Prop
  | memory {dest word digits : Text} {w : Width} {depth : Nat} (hdest : ¬LooksConstant dest)
      (hname : WithWidth "mem" w word) (hdepth : Numeral.IsDecimal digits depth)
      (hlt : depth < 2 ^ 31) : States [dest, "=", word, digits] (.memory dest w depth)
  | operation {dest word : Text} {w : Width} {opcode : Opcode} {args : List Text}
      (hdest : ¬LooksConstant dest) (hopcode : opcode ∈ Opcode.assigned)
      (hname : WithWidth opcode.name w word) :
      States (dest :: "=" :: word :: args) (.operation dest opcode w args)

theorem not_looksConstant_iff : isLiteral word = false ↔ ¬LooksConstant word := by
  rw [← isLiteral_iff, Bool.not_eq_true]

theorem ofWords_of_withWidth {dest : Text} {args : List Text} (hdest : ¬LooksConstant dest)
    (hname : WithWidth name w word) :
    Assignment.ofWords (dest :: "=" :: word :: args) = .ok ⟨dest, name, w, args⟩ := by
  simp [Assignment.ofWords, not_looksConstant_iff.2 hdest, splitWidth_iff.2 hname]

theorem states_iff : (∃ a, Assignment.ofWords ws = .ok a ∧ a.statement = .ok st) ↔
    States ws st := by
  constructor
  · rintro ⟨a, ha, hst⟩
    obtain ⟨word, rfl, hdest, hword⟩ := Statement.ofWords_eq_ok ha
    have hname := splitWidth_iff.1 hword
    rcases Statement.statement_cases hst with
      ⟨digits, depth, hmem, hargs, hdepth, rfl⟩ | ⟨opcode, hopcode, hop, rfl⟩
    · obtain ⟨hdecimal, hlt⟩ := decimal?_widthLimit.1 hdepth
      rw [hargs]
      rw [hmem] at hname
      exact .memory (not_looksConstant_iff.1 hdest) hname hdecimal hlt
    · rw [← hop] at hname
      exact .operation (not_looksConstant_iff.1 hdest) hopcode hname
  · intro h
    cases h with
    | memory hdest hname hdepth hlt =>
      refine ⟨_, ofWords_of_withWidth hdest hname, ?_⟩
      simp [Assignment.statement, decimal?_widthLimit.2 ⟨hdepth, hlt⟩]
    | operation hdest hopcode hname =>
      refine ⟨_, ofWords_of_withWidth hdest hname, ?_⟩
      simp [Assignment.statement, Opcode.name_ne_mem _ hopcode,
        Opcode.ofName?_eq_some.2 ⟨hopcode, rfl⟩]

theorem ofText_iff : Statement.ofText names t = .ok st ↔
    States (Text.words t) st ∧ st.dest ∉ names := by
  rw [← states_iff, Statement.ofText, bind_eq_ok]
  constructor
  · rintro ⟨a, ha, h⟩
    split_ifs at h with hmem
    rw [Assignment.dest_of_statement h]
    exact ⟨⟨a, ha, h⟩, hmem⟩
  · rintro ⟨⟨a, ha, h⟩, hmem⟩
    rw [Assignment.dest_of_statement h] at hmem
    exact ⟨a, ha, by rwa [if_neg hmem]⟩

/-- A line without the carriage return that may close it. -/
def WithoutReturn (line body : Text) : Prop :=
  line = body ++ [13] ∨ line = body ∧ line.getLast? ≠ some 13

theorem withoutReturn_iff {line body : Text} :
    WithoutReturn line body ↔ Text.dropReturn line = body := by
  rw [WithoutReturn, Text.dropReturn]
  split_ifs with hlast
  · obtain ⟨x, rfl⟩ := List.getLast?_eq_some_iff.1 hlast
    simp [hlast]
  · simp only [hlast, not_false_eq_true, ne_eq, and_true, or_iff_right_iff_imp]
    rintro rfl
    simp at hlast

/-- The statements of lines, of which some have none. -/
inductive Lists : List Text → List Statement → Prop
  | nil : Lists [] []
  | skipped {line body : Text} {lines : List Text} {sts : List Statement}
      (hbody : WithoutReturn line body) (hskip : Text.Skipped body) (h : Lists lines sts) :
      Lists (line :: lines) sts
  | statement {line body : Text} {lines ws : List Text} {st : Statement} {sts : List Statement}
      (hbody : WithoutReturn line body) (hskip : ¬Text.Skipped body) (hws : Text.Spaced body ws)
      (hst : States ws st) (h : Lists lines sts) : Lists (line :: lines) (st :: sts)

theorem lists_of_readLines {n : Nat} {read result : List Located}
    (h : readLines n read lines = .ok result) : ∃ sts,
      result.map Located.statement = (read.map Located.statement).reverse ++ sts ∧
        (∀ line ∈ lines, line.length < lineLimit) ∧ Lists lines sts := by
  fun_induction readLines n read lines with
  | case1 n read =>
    cases h
    exact ⟨[], by simp, by simp, .nil⟩
  | case2 n read line lines hlong => cases h
  | case3 n read line lines hlong hblank ih =>
    obtain ⟨sts, hresult, hshort, hlists⟩ := ih h
    have hskip := content?_eq_none_iff.1 hblank
    exact ⟨sts, hresult, List.forall_mem_cons.2 ⟨Nat.lt_of_not_le hlong, hshort⟩,
      .skipped (withoutReturn_iff.2 rfl) hskip hlists⟩
  | case4 n read line lines hlong source hsource fault hfault => cases h
  | case5 n read line lines hlong source hsource st hst ih =>
    obtain ⟨sts, hresult, hshort, hlists⟩ := ih h
    have hskip : ¬Text.Skipped (Text.dropReturn line) := by
      rw [← content?_eq_none_iff, hsource]
      simp
    have hstates := (ofText_iff.1 hst).1
    rw [words_content? hsource] at hstates
    refine ⟨st :: sts, ?_, List.forall_mem_cons.2 ⟨Nat.lt_of_not_le hlong, hshort⟩,
      .statement (withoutReturn_iff.2 rfl) hskip (Text.spaced_words _) hstates hlists⟩
    simp [hresult]

theorem Lists.exists_readLines (h : Lists lines sts) (n : Nat) (read : List Located)
    (hshort : ∀ line ∈ lines, line.length < lineLimit)
    (hnodup : ((read.map Located.dest).reverse ++ sts.map Statement.dest).Nodup) :
    ∃ result, readLines n read lines = .ok result ∧
      result.map Located.statement = (read.map Located.statement).reverse ++ sts := by
  induction h generalizing n read with
  | nil => exact ⟨read.reverse, rfl, by simp⟩
  | @skipped line body lines sts hbody hskip _ ih =>
    obtain ⟨hline, hlines⟩ := List.forall_mem_cons.1 hshort
    obtain ⟨result, hread, hresult⟩ := ih (n + 1) read hlines hnodup
    rw [← withoutReturn_iff.1 hbody] at hskip
    refine ⟨result, ?_, hresult⟩
    rw [readLines, if_neg (Nat.not_le.2 hline), content?_eq_none_iff.2 hskip]
    exact hread
  | @statement line body lines ws st sts hbody hskip hws hst _ ih =>
    obtain ⟨hline, hlines⟩ := List.forall_mem_cons.1 hshort
    rw [← withoutReturn_iff.1 hbody] at hskip hws
    obtain ⟨source, hsource⟩ : ∃ source, content? line = some source :=
      Option.ne_none_iff_exists'.1 fun hnone => hskip (content?_eq_none_iff.1 hnone)
    have hnew : st.dest ∉ read.map Located.dest := by
      intro hmem
      exact List.disjoint_of_nodup_append hnodup (List.mem_reverse.2 hmem) (by simp)
    have hread : Statement.ofText (read.map Located.dest) source = .ok st := by
      rw [ofText_iff, words_content? hsource, Text.words_eq_iff.2 hws]
      exact ⟨hst, hnew⟩
    obtain ⟨result, hrest, hresult⟩ := ih (n + 1) (⟨n + 1, source, st⟩ :: read) hlines
      (by simpa [Located.dest] using hnodup)
    refine ⟨result, ?_, by simpa using hresult⟩
    rw [readLines, if_neg (Nat.not_le.2 hline), hsource]
    simp only [hread]
    exact hrest

def Statement.arguments : Statement → List Text
  | memory _ _ _ => []
  | operation _ _ _ args => args

def Statement.isOperation : Statement → Bool
  | memory _ _ _ => false
  | operation _ _ _ _ => true

theorem Statement.isMemory_node (st : Statement) : st.node.isMemory = !st.isOperation := by
  cases st <;> rfl

/-- What a text says. -/
structure Says (t : Text) (sts : List Statement) : Prop where
  lists : ∃ lines, Text.Lined t lines ∧ (∀ line ∈ lines, line.length < 2 ^ 24) ∧ Lists lines sts
  nodup : (sts.map Statement.dest).Nodup
  constants : ∀ st ∈ sts, ∀ word ∈ st.arguments, LooksConstant word → ∃ w n, IsConstant word w n

/-- The node that a name stands for. -/
inductive Denotes (sts : List Statement) : Text → Node → Prop
  | defined {st : Statement} (h : st ∈ sts) : Denotes sts st.dest st.node
  | constant {word : Text} {w : Width} {n : Nat} (hlooks : LooksConstant word)
      (h : IsConstant word w n) :
      Denotes sts word { name := word, width := constantWidth w n, kind := .constant }
  | free {word : Text} (hlooks : ¬LooksConstant word) (h : ∀ st ∈ sts, st.dest ≠ word) :
      Denotes sts word { name := word, width := .unknown }

theorem States.not_looksConstant (h : States ws st) : ¬LooksConstant st.dest := by
  cases h with
  | memory hdest => exact hdest
  | operation hdest => exact hdest

theorem Lists.not_looksConstant (h : Lists lines sts) :
    ∀ st ∈ sts, ¬LooksConstant st.dest := by
  induction h with
  | nil => exact List.forall_mem_nil _
  | skipped _ _ _ ih => exact ih
  | statement _ _ _ hst _ ih => exact List.forall_mem_cons.2 ⟨hst.not_looksConstant, ih⟩

theorem argument_iff_denotes (hnodup : (sts.map Statement.dest).Nodup)
    (hdest : ∀ st ∈ sts, ¬LooksConstant st.dest) :
    argument (sts.map Statement.node) word = .ok v ↔ Denotes sts word v := by
  constructor
  · intro h
    rw [argument] at h
    cases hf : (sts.map Statement.node).find? (·.name = word) with
    | some u =>
      rw [hf] at h
      cases h
      obtain ⟨st, hst, rfl⟩ := List.mem_map.1 (List.mem_of_find?_eq_some hf)
      obtain rfl : st.node.name = word := by simpa using List.find?_some hf
      rw [Statement.name_node]
      exact .defined hst
    | none =>
      have hnew : ∀ st ∈ sts, st.dest ≠ word := by
        simpa [Statement.name_node] using hf
      rw [hf] at h
      dsimp only at h
      split_ifs at h with hliteral
      · obtain ⟨w, n, hconstant, rfl⟩ := literal_iff.1 h
        exact .constant (isLiteral_iff.1 hliteral) hconstant
      · cases h
        exact .free (fun hlooks => hliteral (isLiteral_iff.2 hlooks)) hnew
  · intro h
    cases h with
    | @defined st hst =>
      have hnames : ((sts.map Statement.node).map Node.name).Nodup := by
        rwa [List.map_map, Function.comp_def, funext Statement.name_node]
      rw [← Statement.name_node]
      exact argument_of_mem hnames (List.mem_map_of_mem hst)
    | constant hlooks hconstant =>
      have hno : ∀ u ∈ sts.map Statement.node, isLiteral u.name = false := by
        refine List.forall_mem_map.2 fun st hst => ?_
        rw [Statement.name_node, not_looksConstant_iff]
        exact hdest st hst
      rw [argument_of_isLiteral hno (isLiteral_iff.2 hlooks), literal_iff]
      exact ⟨_, _, hconstant, rfl⟩
    | free hlooks hnew =>
      have hfind : (sts.map Statement.node).find? (·.name = word) = none := by
        simpa [Statement.name_node] using hnew
      rw [argument, hfind]
      simp [not_looksConstant_iff.2 hlooks]

theorem exists_argument_iff (hnodup : (sts.map Statement.dest).Nodup)
    (hdest : ∀ st ∈ sts, ¬LooksConstant st.dest) :
    (∃ v, argument (sts.map Statement.node) word = .ok v) ↔
      (LooksConstant word → ∃ w n, IsConstant word w n) := by
  simp only [argument_iff_denotes hnodup hdest]
  constructor
  · rintro ⟨v, h⟩ hlooks
    cases h with
    | defined hst => exact absurd hlooks (hdest _ hst)
    | constant _ hconstant => exact ⟨_, _, hconstant⟩
    | free hno => exact absurd hlooks hno
  · intro h
    by_cases hlooks : LooksConstant word
    · obtain ⟨w, n, hconstant⟩ := h hlooks
      exact ⟨_, .constant hlooks hconstant⟩
    · by_cases hdefined : ∃ st ∈ sts, st.dest = word
      · obtain ⟨st, hst, rfl⟩ := hdefined
        exact ⟨_, .defined hst⟩
      · exact ⟨_, .free hlooks fun st hst he => hdefined ⟨st, hst, he⟩⟩

theorem exists_operation?_iff {nodes : List Node} {s : Located} :
    (∃ o, operation? nodes s = .ok o) ↔
      ∀ word ∈ s.statement.arguments, ∃ v, argument nodes word = .ok v := by
  rw [operation?]
  cases s.statement with
  | memory dest width depth => simp [Statement.arguments]
  | operation dest opcode width args =>
    dsimp only [Statement.arguments]
    constructor
    · rintro ⟨o, h⟩ word hword
      cases hargs : args.mapM (argument nodes) with
      | error fault =>
        rw [hargs] at h
        cases h
      | ok sources =>
        obtain ⟨v, -, hv⟩ := exists_mem_mapM hargs hword
        exact ⟨v, hv⟩
    · intro h
      obtain ⟨sources, hsources⟩ := exists_mapM_eq_ok h
      rw [hsources]
      exact ⟨_, rfl⟩

theorem statements_iff : (∃ read, statements t = .ok read ∧ read.map Located.statement = sts) ↔
    (∃ lines, Text.Lined t lines ∧ (∀ line ∈ lines, line.length < 2 ^ 24) ∧ Lists lines sts) ∧
      (sts.map Statement.dest).Nodup := by
  constructor
  · rintro ⟨read, hread, rfl⟩
    obtain ⟨sts, hsts, hshort, hlists⟩ := lists_of_readLines hread
    obtain rfl : read.map Located.statement = sts := by simpa using hsts
    have hnodup := nodup_readLines (by simp) hread
    refine ⟨⟨_, Text.lined_lines t, hshort, hlists⟩, ?_⟩
    rwa [List.map_map]
  · rintro ⟨⟨lines, hlined, hshort, hlists⟩, hnodup⟩
    obtain ⟨read, hread, hsts⟩ := hlists.exists_readLines 0 [] hshort (by simpa)
    rw [statements, Text.lines_eq_iff.2 hlined]
    exact ⟨read, hread, by simpa using hsts⟩

namespace Graph

variable {g : Graph} {read : List Located}

theorem exists_ofStatements_iff : (∃ g, ofStatements read = .ok g) ↔
    ∀ s ∈ read, ∀ word ∈ s.statement.arguments,
      ∃ v, argument (read.map (·.statement.node)) word = .ok v := by
  simp only [← exists_operation?_iff]
  constructor
  · rintro ⟨g, h⟩ s hs
    obtain ⟨found, hfound, -⟩ := bind_eq_ok.1 h
    obtain ⟨o, -, ho⟩ := exists_mem_mapM hfound hs
    exact ⟨o, ho⟩
  · intro h
    obtain ⟨found, hfound⟩ := exists_mapM_eq_ok h
    exact ⟨_, bind_eq_ok.2 ⟨found, hfound, rfl⟩⟩

theorem map_statement_operations {nodes : List Node} {found : List (Option Operation)}
    (h : read.Forall₂ (fun s o => operation? nodes s = .ok o) found) :
    (found.filterMap id).map Operation.statement =
      (read.map Located.statement).filter Statement.isOperation := by
  induction h with
  | nil => rfl
  | @cons s o read found ho _ ih =>
    rw [List.map_cons, List.filter_cons, ← ih]
    cases o with
    | none =>
      rcases operation?_cases ho with ⟨-, hmemory⟩ | ⟨op, hop, -⟩
      · rw [Statement.isMemory_node, Bool.not_eq_true'] at hmemory
        simp [hmemory]
      · cases hop
    | some op =>
      obtain ⟨hop, -⟩ := operation?_eq_some ho
      have hyes : s.statement.isOperation = true := by
        rw [← hop]
        rfl
      simp [hyes, hop]

theorem map_declaration_memories (sts : List Statement) :
    ((sts.map Statement.node).filter Node.isMemory).map Node.declaration =
      sts.filter (!·.isOperation) := by
  have hself (st : Statement) (hst : st ∈ sts.filter (!·.isOperation)) :
      (Node.declaration ∘ Statement.node) st = id st := by
    refine Statement.declaration_node ?_
    rw [Statement.isMemory_node]
    exact (List.mem_filter.1 hst).2
  rw [List.filter_map, Function.comp_def, funext Statement.isMemory_node, List.map_map,
    List.map_congr_left hself, List.map_id]

theorem says_of_statements (hread : statements t = .ok read) (h : ofStatements read = .ok g) :
    Says t (read.map Located.statement) := by
  obtain ⟨hlists, hnodup⟩ := statements_iff.1 ⟨read, hread, rfl⟩
  refine ⟨hlists, hnodup, List.forall_mem_map.2 fun s hs word hword => ?_⟩
  obtain ⟨lines, -, -, hlines⟩ := hlists
  rw [← exists_argument_iff hnodup hlines.not_looksConstant, List.map_map]
  exact exists_ofStatements_iff.1 ⟨g, h⟩ s hs word hword

theorem exists_parse_iff : (∃ g, parse t = .ok g) ↔ ∃ sts, Says t sts := by
  constructor
  · rintro ⟨g, hg⟩
    obtain ⟨read, hread, h⟩ := bind_eq_ok.1 hg
    exact ⟨_, says_of_statements hread h⟩
  · rintro ⟨sts, hlists, hnodup, hconstants⟩
    obtain ⟨read, hread, rfl⟩ := statements_iff.2 ⟨hlists, hnodup⟩
    obtain ⟨lines, -, -, hlines⟩ := hlists
    have hargument : ∀ s ∈ read, ∀ word ∈ s.statement.arguments,
        ∃ v, argument (read.map (·.statement.node)) word = .ok v := by
      intro s hs word hword
      have hexists := (exists_argument_iff hnodup hlines.not_looksConstant).2
        (hconstants _ (List.mem_map_of_mem hs) word hword)
      rwa [List.map_map] at hexists
    obtain ⟨g, hg⟩ := exists_ofStatements_iff.2 hargument
    exact ⟨g, bind_eq_ok.2 ⟨read, hread, hg⟩⟩

theorem stated_of_says (hsaid : Says t sts) (h : parse t = .ok g) : g.Stated sts ∧
    g.operations.map Operation.statement = sts.filter Statement.isOperation := by
  obtain ⟨read, hread, rfl⟩ := statements_iff.2 ⟨hsaid.lists, hsaid.nodup⟩
  obtain ⟨read', hread', h⟩ := bind_eq_ok.1 h
  obtain rfl : read' = read := Except.ok.inj (hread'.symm.trans hread)
  refine ⟨stated_of_statements hread h, ?_⟩
  obtain ⟨found, hfound, h⟩ := bind_eq_ok.1 h
  cases h
  exact map_statement_operations (mapM_eq_ok.1 hfound)

theorem parse_reads_exactly_the_language (t : Text) :
    ((∃ g, parse t = .ok g) ↔ ∃ sts, Says t sts) ∧
      ∀ g sts, parse t = .ok g → Says t sts →
        g.operations.map Operation.statement = sts.filter Statement.isOperation ∧
          g.declared.map Node.declaration = sts.filter (!·.isOperation) ∧
          (∀ v ∈ g.nodes, Denotes sts v.name v) ∧
          ∀ u ∈ g.nodes, ∀ v ∈ g.nodes, u.name = v.name → u = v := by
  refine ⟨exists_parse_iff, fun g sts hg hsaid => ?_⟩
  obtain ⟨hstated, hops⟩ := stated_of_says hsaid hg
  obtain ⟨lines, -, -, hlines⟩ := hsaid.lists
  refine ⟨hops, ?_, fun v hv => ?_, fun u hu v hv hname => hstated.eq_of_name_eq hu hv hname⟩
  · rw [hstated.declared, map_declaration_memories]
  · rw [← argument_iff_denotes hsaid.nodup hlines.not_looksConstant]
    exact hstated.argument_eq hv

def offsetText : Text :=
  "\t# offset\r\ns\u00a0= add'8 a -0x_F'08\r\n\n m = mem 0016\na = rd'8 1 m\u2003b"

def offsetStatements : List Located :=
  [⟨2, "s\u00a0= add'8 a -0x_F'08", .operation "s" .add 8 ["a", "-0x_F'08"]⟩,
    ⟨4, "m = mem 0016", .memory "m" .unknown 16⟩,
    ⟨5, "a = rd'8 1 m\u2003b", .operation "a" .rd 8 ["1", "m", "b"]⟩]

def offset : Graph where
  operations :=
    [⟨⟨"s", 8, .wire, 0⟩, 8, .add, [⟨"a", 8, .wire, 0⟩, ⟨"-0x_F'08", 8, .constant, 0⟩]⟩,
      ⟨⟨"a", 8, .wire, 0⟩, 8, .rd,
        [⟨"1", 1, .constant, 0⟩, ⟨"m", .unknown, .memory 16, 0⟩, ⟨"b", .unknown, .wire, 0⟩]⟩]
  declared := [⟨"m", .unknown, .memory 16, 0⟩]

theorem statements_offsetText : statements offsetText = .ok offsetStatements := by cbv

theorem ofStatements_offset : ofStatements offsetStatements = .ok offset := by cbv

theorem offsetText_is_read :
    parse offsetText = .ok offset ∧ Says offsetText (offsetStatements.map Located.statement) ∧
      (∃ g, parse offsetText = .ok g) ∧
      offset.operations.map Operation.statement =
        (offsetStatements.map Located.statement).filter Statement.isOperation ∧
      offset.declared.map Node.declaration =
        (offsetStatements.map Located.statement).filter (!·.isOperation) ∧
      (∀ v ∈ offset.nodes, Denotes (offsetStatements.map Located.statement) v.name v) ∧
      ∀ u ∈ offset.nodes, ∀ v ∈ offset.nodes, u.name = v.name → u = v := by
  have hparse : parse offsetText = .ok offset :=
    bind_eq_ok.2 ⟨_, statements_offsetText, ofStatements_offset⟩
  have hsaid := says_of_statements statements_offsetText ofStatements_offset
  obtain ⟨hread, hmeaning⟩ := parse_reads_exactly_the_language offsetText
  exact ⟨hparse, hsaid, hread.2 ⟨_, hsaid⟩, hmeaning offset _ hparse hsaid⟩

end Graph

end Netlist
