import ResourceQuery.Proofs.Clause.Respacing
import ResourceQuery.Proofs.CommandLine.Options
import ResourceQuery.Proofs.Lexer.TrailingBlanks
import ResourceQuery.Proofs.Request.Checks

/-!
# Where the expression of a check comes from

A check comes to the same whether its expression is an argument or the standard input, and whether
line ends follow it there. An argument that begins with a hyphen is taken as options, so an
expression that does so has to stand behind two hyphens.
-/

namespace ResourceQuery

set_option autoImplicit false

variable {clause : Clause} {name e text : String} {ts : List Token} {environment : Option String}
  {input unread : Input}

/-- Carriage returns and line feeds, and nothing else. -/
def IsLineEnds (ends : String) : Prop := ∀ c ∈ ends.toList, c = '\r' ∨ c = '\n'

instance : DecidablePred IsLineEnds := fun _ => List.decidableBAll _ _

theorem isBlank_of_isLineEnd {c : Char} (h : c = '\r' ∨ c = '\n') : Text.isBlank c = true := by
  rcases h with rfl | rfl <;> rfl

theorem tokenize_append_blanks {w : String} (hw : ∀ c ∈ w.toList, Text.isBlank c = true) :
    tokenize (e ++ w) = .ok ts ↔ tokenize e = .ok ts := by
  rw [tokenize_eq_ok_iff, tokenize_eq_ok_iff, String.toList_append, tokenizes_append_blanks hw]

theorem tokenize_trimLineEnds :
    tokenize (Command.trimLineEnds text) = .ok ts ↔ tokenize text = .ok ts := by
  -- what is trimmed stands behind the rest, and is blank
  have hsplit : (Command.trimLineEnds text).toList ++
      text.toList.rtakeWhile (fun c => c == '\r' || c == '\n') = text.toList := by
    rw [Command.trimLineEnds, String.toList_ofList]
    exact List.rdropWhile_append_rtakeWhile
  have hblank : ∀ c ∈ text.toList.rtakeWhile (fun c => c == '\r' || c == '\n'),
      Text.isBlank c = true := by
    intro c hc
    apply isBlank_of_isLineEnd
    simpa using List.mem_rtakeWhile_imp hc
  rw [tokenize_eq_ok_iff, tokenize_eq_ok_iff, ← hsplit, tokenizes_append_blanks hblank]

/-- The line ends behind an expression are no part of its clause. -/
theorem Clause.parse_trimLineEnds_append {ends : String} (hends : IsLineEnds ends)
    (names : PrefixMap) (tree : Tree) :
    clause.parse names (Command.trimLineEnds (e ++ ends)) = .ok tree ↔
      clause.parse names e = .ok tree := by
  obtain ⟨accepts, haccepts⟩ := clause.exists_accepts names
  have hblank : ∀ c ∈ ends.toList, Text.isBlank c = true := by
    intro c hc
    exact isBlank_of_isLineEnd (hends c hc)
  simp only [haccepts, tokenize_trimLineEnds, tokenize_append_blanks hblank]

theorem Check.run_eq_ok_iff {c : Check} {shown : Option Json} : c.run = .ok shown ↔
    (c.invert && !c.clause.isPropertyList) = false ∧
      ∃ tree, c.tree = .ok tree ∧ (if c.syntaxOnly then none else some tree) = shown := by
  unfold run
  cases c.invert && !c.clause.isPropertyList with
  | true => simp
  | false => cases h : c.tree <;> simp

/-- What is written of what a check shows. -/
def Check.report (c : Check) : Option Json → String
  | some tree => c.render tree ++ "\n"
  | none => "Syntax is valid\n"

namespace Command

/-- The check of an expression under the options that are given. -/
def checkOf (clause : Clause) (e : String) (environment : Option String)
    (given : CommandLine.Given) : Check :=
  ⟨clause, e, given.prefixes.or environment, given.pretty, given.invert, given.syntaxOnly⟩

theorem run_checkOf_trimLineEnds_append {ends : String} (hends : IsLineEnds ends)
    (given : CommandLine.Given) (shown : Option Json) :
    (checkOf clause (trimLineEnds (e ++ ends)) environment given).run = .ok shown ↔
      (checkOf clause e environment given).run = .ok shown := by
  simp only [Check.run_eq_ok_iff, Check.tree_eq_ok_iff, checkOf,
    Clause.parse_trimLineEnds_append hends]

theorem output_argument (given : CommandLine.Given) :
    (check clause (some e) given).output environment unread =
      ((checkOf clause e environment given).run.map
        (checkOf clause e environment given).report).mapError .failed := by
  unfold checkOf
  simp only [output, readExpression, bind, Except.bind]
  cases Check.run _ with
  | error failure => rfl
  | ok shown => cases shown <;> rfl

/-- What is read counts as an argument that has no line ends behind it. -/
theorem output_input (given : CommandLine.Given) (unread : Input) :
    (check clause none given).output environment text.toUTF8 =
      (check clause (some (trimLineEnds text)) given).output environment unread := by
  simp only [output, readExpression, fromUTF8?_toUTF8]

end Command

/-- They end with the same code, and with the same on the standard output. -/
structure Outcome.Agrees (o o' : Outcome) : Prop where
  code : o.code = o'.code
  stdout : o.stdout = o'.stdout

theorem Command.agrees_of_output {command command' : Command} {input input' : Input}
    (h : ∀ written, command.output environment input = .ok written ↔
      command'.output environment input' = .ok written) :
    (command.run environment input).Agrees (command'.run environment input') := by
  unfold run
  cases hwritten : command.output environment input with
  | ok written =>
    rw [(h written).mp hwritten]
    exact ⟨rfl, rfl⟩
  | error refusal =>
    cases hwritten' : command'.output environment input' with
    | ok written' =>
      rw [(h written').mpr hwritten'] at hwritten
      cases hwritten
    | error refusal' => exact ⟨rfl, rfl⟩

namespace CommandLine

open Scan

theorem isOperand_of_ofName? (h : Clause.ofName? name = some clause) : IsOperand name := by
  have hall : ∀ word ∈ ["prefix", "where", "select", "properties", "order-by", "orderBy",
      "search-terms", "searchTerms"], IsOperand word := by decide
  apply hall
  unfold Clause.ofName? at h
  split at h <;> simp_all

/-- A check is made of its operands and of the options that are given with them. -/
theorem ofArguments?_of_all? {arguments operands : List String} {given? : Option Given} {mode : Mode}
    (hmode : mode ≠ .help)
    (h : all? true arguments = given?.map (⟨·.withOperands operands, mode⟩)) :
    Command.ofArguments? ("check" :: arguments) =
      given?.bind fun given => Command.check? (given.withOperands operands) := by
  simp only [Command.ofArguments?, h]
  cases given? with
  | none => rfl
  | some given => simp [Command.ofScan?, hmode]

/-- Two command lines that give the same options come to the same, where one has the expression as
an operand and the other leaves it to the input. -/
theorem agrees_of_all? {arguments arguments' : List String} {given? : Option Given} {ends : String}
    {mode : Mode} (hmode : mode ≠ .help) (hclause : Clause.ofName? name = some clause)
    (hends : IsLineEnds ends)
    (hargument : all? true arguments = given?.map (⟨·.withOperands [name, e], mode⟩))
    (hinput : all? true arguments' = given?.map (⟨·.withOperands [name], .any⟩)) :
    (run ("check" :: arguments) environment unread).Agrees
      (run ("check" :: arguments') environment (e ++ ends).toUTF8) := by
  rw [run, ofArguments?_of_all? hmode hargument, run, ofArguments?_of_all? (by decide) hinput]
  cases given? with
  | none => exact ⟨rfl, rfl⟩
  | some given =>
    have hcommand : Command.check? (given.withOperands [name, e]) =
        some (.check clause (some e) (given.withOperands [name, e])) := by
      simp [Command.check?, Given.withOperands, hclause]
    have hcommand' : Command.check? (given.withOperands [name]) =
        some (.check clause none (given.withOperands [name])) := by
      simp [Command.check?, Given.withOperands, hclause]
    rw [Option.bind_some, hcommand, Option.bind_some, hcommand']
    apply Command.agrees_of_output
    intro written
    rw [Command.output_input _ unread, Command.output_argument, Command.output_argument,
      mapError_eq_ok_iff, mapError_eq_ok_iff, map_eq_ok_iff, map_eq_ok_iff]
    simp only [Command.run_checkOf_trimLineEnds_append hends]
    rfl

/-- An expression that does not begin with a hyphen may be an argument or the standard input, where
line ends may follow it. Behind two hyphens every expression may be an argument. -/
theorem argument_agrees_with_input {ends : String}
    (hclause : Clause.ofName? name = some clause) (hends : IsLineEnds ends)
    (before between behind : List Switch) :
    (IsOperand e →
      (run ("check" :: (words before ++ name :: (words between ++ e :: words behind)))
        environment unread).Agrees
      (run ("check" :: (words before ++ name :: (words between ++ words behind)))
        environment (e ++ ends).toUTF8)) ∧
    (run ("check" :: (words before ++ name :: (words between ++ ["--", e])))
      environment unread).Agrees
    (run ("check" :: (words before ++ name :: words between))
      environment (e ++ ends).toUTF8) := by
  have hname := isOperand_of_ofName? hclause
  constructor
  · intro he
    exact agrees_of_all? (by decide) hclause hends (all?_of_argument before between behind hname he)
      (all?_of_clause before between behind hname)
  · have hinput := all?_of_clause before between [] hname
    have hnil : words [] = [] := rfl
    rw [hnil, List.append_nil, List.append_nil] at hinput
    exact agrees_of_all? (by decide) hclause hends (all?_of_escaped before between hname) hinput

theorem argument_agrees_with_input_descending :
    (run ["check", "order-by", "+a:b", "-pP", "a=<u>"] none .terminal).Agrees
      (run ["check", "order-by", "-pP", "a=<u>"] none ("+a:b" ++ "\r\n").toUTF8) ∧
    (run ["check", "--prefixes=a=<u>", "order-by", "--", "-a:b"] none .terminal).Agrees
      (run ["check", "--prefixes=a=<u>", "order-by"] none ("-a:b" ++ "\n").toUTF8) ∧
    (run ["check", "--prefixes=a=<u>", "order-by", "--", "-a:b"] none .terminal).code = 0 := by
  have hclause : Clause.ofName? "order-by" = some .orderBy := rfl
  have hends : IsLineEnds "\r\n" := by decide
  have hend : IsLineEnds "\n" := by decide
  refine ⟨?_, ?_, ?_⟩
  · exact (argument_agrees_with_input hclause hends [] []
      [.prefixes (.letter [.pretty]) "a=<u>"]).1 (by decide)
  · exact (argument_agrees_with_input hclause hend [.prefixesAttached .long "a=<u>"] [] []).2
  · decide +kernel

/-- A sort key that descends begins with a hyphen, and so as an argument it has no place. -/
theorem not_forall_argument_agrees_with_input :
    ¬ ∀ name e clause ends environment unread (before between behind : List Switch),
      Clause.ofName? name = some clause → IsLineEnds ends →
      (run ("check" :: (words before ++ name :: (words between ++ e :: words behind)))
        environment unread).Agrees
      (run ("check" :: (words before ++ name :: (words between ++ words behind)))
        environment (e ++ ends).toUTF8) := by
  intro hall
  have hclause : Clause.ofName? "order-by" = some .orderBy := rfl
  have hends : IsLineEnds "" := by decide
  have hname := isOperand_of_ofName? hclause
  have hclaimed := hall "order-by" "-a:b" .orderBy "" none .terminal []
    [.prefixes .long "a=<u>"] [] hclause hends
  have hescaped : (run ["check", "order-by", "--prefixes", "a=<u>", "--", "-a:b"] none
      .terminal).Agrees
        (run ["check", "order-by", "--prefixes", "a=<u>"] none ("-a:b" ++ "").toUTF8) :=
    agrees_of_all? (by decide) hclause hends
      (all?_of_escaped [] [.prefixes .long "a=<u>"] hname)
      (all?_of_clause [] [.prefixes .long "a=<u>"] [] hname)
  -- without the two hyphens the letters of the expression are none of an option
  have hcode : (run ["check", "order-by", "--prefixes", "a=<u>", "-a:b"] none .terminal).code =
      (run ["check", "order-by", "--prefixes", "a=<u>", "--", "-a:b"] none .terminal).code :=
    hclaimed.code.trans hescaped.code.symm
  revert hcode
  decide +kernel

end CommandLine

end ResourceQuery
