import ResourceQuery.CommandLine

/-!
# Options between operands

The options of a check may stand before, between and behind its operands. What they set, and whether
they have a place, depends on them alone: they neither read the operands nor change them.
-/

namespace ResourceQuery.CommandLine

set_option autoImplicit false

open Scan

variable {g : Given} {operands : List String} {word value : String} {c : Char} {cs : List Char}

/-- The options whose letters need no value. -/
inductive Letter where
  | pretty
  | invert
  deriving DecidableEq, Repr

def Letter.char : Letter → Char
  | pretty => 'p'
  | invert => 'i'

/-- The option for the prefixes, by its long name or by its letter, which others may stand before. -/
inductive PrefixesName where
  | long
  | letter (before : List Letter)
  deriving DecidableEq, Repr

def PrefixesName.chars : PrefixesName → List Char
  | long => "--prefixes".toList
  | letter before => '-' :: (before.map Letter.char ++ ['P'])

theorem PrefixesName.chars_letter (before : List Letter) :
    (letter before).chars = '-' :: (before.map Letter.char ++ ['P']) := rfl

/-- An option of a check, with its value in the next argument or behind an equals sign. -/
inductive Switch where
  | pretty
  | invert
  | syntaxOnly
  | letters (first : Letter) (others : List Letter)
  | prefixes (name : PrefixesName) (value : String)
  | prefixesAttached (name : PrefixesName) (value : String)
  deriving DecidableEq, Repr

def Switch.words : Switch → List String
  | pretty => ["--pretty"]
  | invert => ["--invert"]
  | syntaxOnly => ["--syntax-only"]
  | letters first others => [String.ofList ('-' :: (first :: others).map Letter.char)]
  | prefixes name value => [String.ofList name.chars, value]
  | prefixesAttached name value => [String.ofList (name.chars ++ '=' :: value.toList)]

/-- It does not begin with a hyphen, unless it is nothing else. -/
def IsOperand (word : String) : Prop := word = "-" ∨ word.toList.head? ≠ some '-'

instance : DecidablePred IsOperand := fun _ => instDecidableOr

theorem isOperand_iff : IsOperand word ↔ ∀ c cs, word.toList ≠ '-' :: c :: cs := by
  have hsingle : word = "-" ↔ word.toList = ['-'] := String.toList_inj.symm
  rw [IsOperand, hsingle]
  cases h : word.toList with
  | nil => simp
  | cons d ds => cases ds <;> simp [Classical.em]

def Letter.set? (g : Given) : Letter → Option Given
  | pretty => g.setPretty?
  | invert => g.setInvert?

def PrefixesName.set? (g : Given) : PrefixesName → Option Given
  | long => some g
  | letter before => before.foldlM Letter.set? g

/-- What an option sets. A value in the next argument may not look like an option itself. -/
def Switch.set? (g : Given) : Switch → Option Given
  | pretty => g.setPretty?
  | invert => g.setInvert?
  | syntaxOnly => g.setSyntaxOnly?
  | letters first others => (first :: others).foldlM Letter.set? g
  | prefixes name value =>
    (name.set? g).bind fun g => if IsOperand value then g.setPrefixes? value else none
  | prefixesAttached name value => (name.set? g).bind (·.setPrefixes? value)

def Given.withOperands (g : Given) (operands : List String) : Given := { g with operands }

/-- What is set does not depend on the operands. -/
def Commutes (set? : Given → Option Given) : Prop :=
  ∀ g operands, set? (g.withOperands operands) = (set? g).map (·.withOperands operands)

theorem commutes_setPretty? : Commutes Given.setPretty? := by
  intro g operands
  cases h : g.pretty <;> simp [Given.setPretty?, Given.withOperands, h]

theorem commutes_setInvert? : Commutes Given.setInvert? := by
  intro g operands
  cases h : g.invert <;> simp [Given.setInvert?, Given.withOperands, h]

theorem commutes_setSyntaxOnly? : Commutes Given.setSyntaxOnly? := by
  intro g operands
  cases h : g.syntaxOnly <;> simp [Given.setSyntaxOnly?, Given.withOperands, h]

theorem commutes_setPrefixes? (value : String) : Commutes (·.setPrefixes? value) := by
  intro g operands
  cases h : g.prefixes <;> simp [Given.setPrefixes?, Given.withOperands, h]

theorem Commutes.bind {set? set?' : Given → Option Given} (h : Commutes set?)
    (h' : Commutes set?') : Commutes fun g => (set? g).bind set?' := by
  intro g operands
  simp only [h g operands]
  cases set? g with
  | none => rfl
  | some g' => exact h' g' operands

theorem commutes_foldlM {α : Type} {set? : Given → α → Option Given}
    (h : ∀ a, Commutes (set? · a)) (items : List α) : Commutes (items.foldlM set?) := by
  induction items with
  | nil => exact fun _ _ => rfl
  | cons a items ih =>
    have hcons : (a :: items).foldlM set? = fun g => (set? g a).bind (items.foldlM set?) := by
      funext g
      rw [List.foldlM_cons]
      rfl
    rw [hcons]
    exact (h a).bind ih

theorem Letter.commutes_set? (letter : Letter) : Commutes (set? · letter) := by
  cases letter with
  | pretty => exact commutes_setPretty?
  | invert => exact commutes_setInvert?

theorem PrefixesName.commutes_set? (name : PrefixesName) : Commutes (set? · name) := by
  cases name with
  | long => exact fun _ _ => rfl
  | letter before => exact commutes_foldlM Letter.commutes_set? before

theorem Switch.commutes_set? (switch : Switch) : Commutes (set? · switch) := by
  cases switch with
  | pretty => exact commutes_setPretty?
  | invert => exact commutes_setInvert?
  | syntaxOnly => exact commutes_setSyntaxOnly?
  | letters first others => exact commutes_foldlM Letter.commutes_set? (first :: others)
  | prefixes name value =>
    apply (PrefixesName.commutes_set? name).bind
    by_cases h : IsOperand value
    · simp only [if_pos h]
      exact commutes_setPrefixes? value
    · simp only [if_neg h]
      exact fun _ _ => rfl
  | prefixesAttached name value =>
    exact (PrefixesName.commutes_set? name).bind (commutes_setPrefixes? value)

theorem foldlM_word {s : Scan} : [word].foldlM (step true) s = step true s word := bind_pure _

theorem step_any_of_isOperand (h : IsOperand word) :
    step true ⟨g, .any⟩ word = some ⟨g.addOperand word, .any⟩ := by
  rw [isOperand_iff] at h
  unfold step
  split <;> simp_all

theorem step_prefixes : step true ⟨g, .prefixes⟩ value =
    (if IsOperand value then g.setPrefixes? value else none).map (⟨·, .any⟩) := by
  by_cases h : IsOperand value
  · rw [if_pos h]
    rw [isOperand_iff] at h
    unfold step
    split <;> simp_all
  · rw [if_neg h]
    obtain ⟨c, cs, htext⟩ : ∃ c cs, value.toList = '-' :: c :: cs := by
      simpa [isOperand_iff] using h
    simp [step, htext]

theorem step_word : step true ⟨g, .any⟩ (String.ofList ('-' :: '-' :: c :: cs)) =
    word? g (splitWord (c :: cs)).1 (splitWord (c :: cs)).2 := by
  simp [step]

theorem step_letters (hc : c ≠ '-') :
    step true ⟨g, .any⟩ (String.ofList ('-' :: c :: cs)) = letters? g (c :: cs) := by
  simp [step, hc]

theorem Letter.char_ne_hyphen (letter : Letter) : letter.char ≠ '-' := by
  cases letter <;> decide

theorem letters?_cons (letter : Letter) :
    letters? g (letter.char :: cs) = (letter.set? g).bind (letters? · cs) := by
  cases letter <;> rfl

theorem letters?_append (letters : List Letter) (cs : List Char) :
    letters? g (letters.map Letter.char ++ cs) =
      (letters.foldlM Letter.set? g).bind (letters? · cs) := by
  induction letters generalizing g with
  | nil => rfl
  | cons letter letters ih =>
    rw [List.map_cons, List.cons_append, letters?_cons, List.foldlM_cons]
    cases h : Letter.set? g letter with
    | none => rfl
    | some g' => exact ih

/-- Letters in one argument set what they stand for, and then what stands behind them is read. -/
theorem step_letters_append (letters : List Letter) (hc : c ≠ '-') :
    step true ⟨g, .any⟩ (String.ofList ('-' :: (letters.map Letter.char ++ c :: cs))) =
      (letters.foldlM Letter.set? g).bind (letters? · (c :: cs)) := by
  rw [← letters?_append]
  cases letters with
  | nil => exact step_letters hc
  | cons letter letters => exact step_letters letter.char_ne_hyphen

theorem step_name (name : PrefixesName) : step true ⟨g, .any⟩ (String.ofList name.chars) =
    (name.set? g).map (⟨·, .prefixes⟩) := by
  cases name with
  | long => rfl
  | letter before =>
    have hP : 'P' ≠ '-' := by decide
    rw [PrefixesName.chars_letter, step_letters_append before hP, Option.map_eq_bind]
    rfl

theorem step_attached (name : PrefixesName) (value : String) :
    step true ⟨g, .any⟩ (String.ofList (name.chars ++ '=' :: value.toList)) =
      ((name.set? g).bind (·.setPrefixes? value)).map (⟨·, .any⟩) := by
  cases name with
  | long =>
    have hchars : PrefixesName.long.chars ++ '=' :: value.toList =
        '-' :: '-' :: 'p' :: ("refixes".toList ++ '=' :: value.toList) := rfl
    have hsplit : splitWord ('p' :: ("refixes".toList ++ '=' :: value.toList)) =
        ("prefixes", some value) := by
      simp [splitWord]
    rw [hchars, step_word, hsplit]
    rfl
  | letter before =>
    have hP : 'P' ≠ '-' := by decide
    have hletters : (letters? · ('P' :: '=' :: value.toList)) =
        fun g => (g.setPrefixes? value).map (⟨·, .any⟩) := by
      funext g
      simp [letters?]
    rw [PrefixesName.chars_letter, List.cons_append, List.append_assoc, List.singleton_append,
      step_letters_append before hP, hletters, Option.map_bind]
    rfl

/-- The arguments of an option set what the option sets. -/
theorem Switch.foldlM_words (switch : Switch) :
    switch.words.foldlM (step true) ⟨g, .any⟩ = (switch.set? g).map (⟨·, .any⟩) := by
  cases switch with
  | pretty => exact foldlM_word
  | invert => exact foldlM_word
  | syntaxOnly => exact foldlM_word
  | letters first others =>
    have hletters := letters?_append (g := g) (first :: others) []
    rw [List.append_nil] at hletters
    rw [words, foldlM_word, List.map_cons, step_letters first.char_ne_hyphen, set?,
      Option.map_eq_bind]
    exact hletters
  | prefixes name value =>
    rw [words, List.foldlM_cons, step_name, set?, Option.map_bind]
    cases name.set? g with
    | none => rfl
    | some g' => exact (foldlM_word).trans step_prefixes
  | prefixesAttached name value =>
    rw [words, foldlM_word, step_attached]
    rfl

def words (switches : List Switch) : List String := switches.flatMap Switch.words

theorem foldlM_words (switches : List Switch) :
    (words switches).foldlM (step true) ⟨g, .any⟩ =
      (switches.foldlM Switch.set? g).map (⟨·, .any⟩) := by
  induction switches generalizing g with
  | nil => rfl
  | cons switch switches ih =>
    rw [words, List.flatMap_cons, List.foldlM_append, switch.foldlM_words, List.foldlM_cons]
    cases switch.set? g with
    | none => rfl
    | some g' => exact ih

/-- Options set the same whatever the operands before them are, and keep these. -/
theorem foldlM_words_withOperands (switches : List Switch) :
    (words switches).foldlM (step true) ⟨g.withOperands operands, .any⟩ =
      (switches.foldlM Switch.set? g).map (⟨·.withOperands operands, .any⟩) := by
  have hfold : switches.foldlM Switch.set? (g.withOperands operands) =
      (switches.foldlM Switch.set? g).map (·.withOperands operands) :=
    commutes_foldlM Switch.commutes_set? switches g operands
  rw [foldlM_words, hfold, Option.map_map]
  rfl

theorem foldlM_words_append (switches : List Switch) (rest : List String) :
    (words switches ++ rest).foldlM (step true) ⟨g.withOperands operands, .any⟩ =
      (switches.foldlM Switch.set? g).bind fun g' =>
        rest.foldlM (step true) ⟨g'.withOperands operands, .any⟩ := by
  rw [List.foldlM_append, foldlM_words_withOperands]
  cases switches.foldlM Switch.set? g <;> rfl

theorem foldlM_operand_cons (h : IsOperand word) (rest : List String) :
    (word :: rest).foldlM (step true) ⟨g.withOperands operands, .any⟩ =
      rest.foldlM (step true) ⟨g.withOperands (operands ++ [word]), .any⟩ := by
  rw [List.foldlM_cons, step_any_of_isOperand h]
  rfl

section

variable {name e : String} (before between behind : List Switch)

theorem foldlM_clause_append (hname : IsOperand name) (rest : List String) :
    (words before ++ name :: (words between ++ rest)).foldlM (step true) ⟨.empty, .any⟩ =
      ((before ++ between).foldlM Switch.set? .empty).bind fun g =>
        rest.foldlM (step true) ⟨g.withOperands [name], .any⟩ := by
  have hempty : Given.empty = Given.empty.withOperands [] := rfl
  rw [hempty, foldlM_words_append, List.foldlM_append, ← hempty]
  simp only [foldlM_operand_cons hname, foldlM_words_append]
  rw [Option.bind_eq_bind, Option.bind_assoc]
  rfl

theorem all?_eq_map {arguments : List String} {switches : List Switch}
    (h : arguments.foldlM (step true) ⟨.empty, .any⟩ =
      (switches.foldlM Switch.set? .empty).map (⟨·.withOperands operands, .any⟩)) :
    all? true arguments =
      (switches.foldlM Switch.set? .empty).map (⟨·.withOperands operands, .any⟩) := by
  rw [all?, h]
  cases switches.foldlM Switch.set? .empty <;> rfl

theorem all?_of_clause (hname : IsOperand name) :
    all? true (words before ++ name :: (words between ++ words behind)) =
      ((before ++ between ++ behind).foldlM Switch.set? .empty).map
        (⟨·.withOperands [name], .any⟩) := by
  apply all?_eq_map
  rw [foldlM_clause_append before between hname, List.foldlM_append (l := before ++ between)]
  simp only [foldlM_words_withOperands]
  exact Option.map_bind.symm

/-- A clause and an expression, with options around them. -/
theorem all?_of_argument (hname : IsOperand name) (he : IsOperand e) :
    all? true (words before ++ name :: (words between ++ e :: words behind)) =
      ((before ++ between ++ behind).foldlM Switch.set? .empty).map
        (⟨·.withOperands [name, e], .any⟩) := by
  apply all?_eq_map
  rw [foldlM_clause_append before between hname, List.foldlM_append (l := before ++ between)]
  simp only [foldlM_operand_cons he, foldlM_words_withOperands]
  exact Option.map_bind.symm

/-- Behind two hyphens an expression is an operand, whatever it begins with. -/
theorem all?_of_escaped (hname : IsOperand name) :
    all? true (words before ++ name :: (words between ++ ["--", e])) =
      ((before ++ between).foldlM Switch.set? .empty).map
        (⟨·.withOperands [name, e], .operands⟩) := by
  rw [all?, foldlM_clause_append before between hname]
  cases (before ++ between).foldlM Switch.set? .empty <;> rfl

end

end ResourceQuery.CommandLine
