import ChainSaw.Parameters
import Mathlib.Data.List.Induction
import Mathlib.Data.List.TakeWhile

set_option autoImplicit false

namespace ChainSaw

open Std (TreeMap)
open Patterns

/-- A decimal number of type `int`, as it is written. -/
structure Decimal where
  sign : Sign
  digits : Line
  some : digits ≠ []
  decimal : ∀ c ∈ digits, c.isDigit = true
  fits : -2 ^ 31 ≤ sign.apply (number digits) ∧ sign.apply (number digits) < 2 ^ 31

def Sign.text : Sign → Line
  | .none => []
  | .plus => ['+']
  | .minus => ['-']

def Decimal.text (value : Decimal) : Line := value.sign.text ++ value.digits

def Decimal.value (value : Decimal) : Int := value.sign.apply (number value.digits)

/-- `param<NAME, VALUE>`, with blanks before the value and at the end. -/
structure ParamLine where
  name : Line
  gap : Line
  value : Decimal
  trail : Line
  plain : ∀ c ∈ name, c ≠ ',' ∧ c ≠ '<' ∧ c ≠ '>'
  gapBlank : ∀ c ∈ gap, space c = true
  trailBlank : ∀ c ∈ trail, space c = true

def ParamLine.text (line : ParamLine) : Line :=
  paramWord ++ '<' :: (line.name ++ ',' :: (line.gap ++ (line.value.text ++ '>' :: line.trail)))

/-- A comment over two or more lines, from `/*` at the start of the first to the
only `*/`, at the end of the last. -/
structure CommentBlock where
  first : Line
  middle : List Line
  last : Line
  firstOpen : ¬ ['*', '/'] <:+: '/' :: '*' :: first
  middleOpen : ∀ line ∈ middle, ¬ ['*', '/'] <:+: line
  lastOpen : ¬ ['*', '/'] <:+: last ++ ['*']

def CommentBlock.opening (block : CommentBlock) : Line := '/' :: '*' :: block.first

def CommentBlock.closing (block : CommentBlock) : Line := block.last ++ ['*', '/']

inductive FileItem where
  | blank (text : Line) (blank : ∀ c ∈ text, space c = true)
  | single (text : Line)
  | param (line : ParamLine)
  | whole (text : Line)
  | block (comment : CommentBlock)

namespace FileItem

def lines : FileItem → List Line
  | .blank text _ => [text]
  | .single text => ['/' :: '/' :: text]
  | .param line => [line.text]
  | .whole text => ['/' :: '*' :: (text ++ ['*', '/'])]
  | .block comment => comment.opening :: (comment.middle ++ [comment.closing])

/-- What a param line gives to a name. -/
def value? (name : String) : FileItem → Option Nat
  | .param line => if String.ofList line.name = name then .some (toUint32 line.value.value) else none
  | _ => none

end FileItem

/-- The value of the last param line for a name. -/
def lastValue (items : List FileItem) (name : String) : Option Nat :=
  (items.filterMap (FileItem.value? name)).getLast?

theorem whole_iff {line : Line} : fullMatch regWholeComment line = true ↔
    ∃ text, line = '/' :: '*' :: (text ++ ['*', '/']) := by
  have every : ∀ c, (dot c || (c == '\n' || c == '\r')) = true := by
    intro c
    by_cases newline : c = '\n'
    · simp [newline]
    · by_cases carriage : c = '\r'
      · simp [carriage]
      · simp [dot, newline, carriage]
  unfold regWholeComment
  rw [fullMatch_literal]
  simp only [fullMatch_many (show Times.reluctant ≠ .once by decide), every, fullMatch_word]
  simp

theorem word_dots_eq {word : Line} (plain : word.all dot = true) (line : Line) :
    fullMatch (literal word ++ [dots]) line = (word.isPrefixOf line && line.all dot) := by
  rw [Bool.eq_iff_iff, fullMatch_literal, Bool.and_eq_true, List.isPrefixOf_iff_prefix]
  simp only [dots, fullMatch_rest (show Times.greedy ≠ .once by decide)]
  constructor
  · rintro ⟨text, rfl, all⟩
    exact ⟨List.prefix_append word text, by simp [plain, List.all_eq_true.mpr all]⟩
  · rintro ⟨⟨text, rfl⟩, all⟩
    rw [List.all_append, Bool.and_eq_true] at all
    exact ⟨text, rfl, List.all_eq_true.mp all.2⟩

theorem singleComment_eq (line : Line) : fullMatch regSingleComment line =
    (['/', '/'].isPrefixOf line && line.all dot) :=
  word_dots_eq (by decide) line

theorem startComment_eq (line : Line) : fullMatch regStartComment line =
    (['/', '*'].isPrefixOf line && line.all dot) :=
  word_dots_eq (by decide) line

theorem paramStart_eq (line : Line) : fullMatch regParamStart line =
    (paramWord.isPrefixOf line && line.all dot) :=
  word_dots_eq (by decide) line

theorem end_iff {line : Line} : fullMatch regEndComment line = true ↔
    ∃ text, line = text ++ ['*', '/'] ∧ ∀ c ∈ text, dot c = true := by
  unfold regEndComment dots
  rw [fullMatch_many (show Times.greedy ≠ .once by decide)]
  simp only [fullMatch_word]
  constructor
  · rintro ⟨text, _, rfl, all, rfl⟩
    exact ⟨text, rfl, all⟩
  · rintro ⟨text, rfl, all⟩
    exact ⟨text, _, rfl, all, rfl⟩

theorem empty_iff {line : Line} : fullMatch regEmptyLine line = true ↔
    ∀ c ∈ line, space c = true :=
  fullMatch_rest (show Times.greedy ≠ .once by decide)

/-- The line ends the comment that is being read. -/
def endsComment (line : Line) : Bool :=
  !fullMatch regWholeComment line && (!fullMatch regSingleComment line &&
    fullMatch regEndComment line)

/-- While a comment is read no line is stored, and only one test ends it. -/
theorem readLine_inside (paramSet : TreeMap String Nat) (line : Line) :
    readLine ⟨true, paramSet⟩ line = .ok ⟨!endsComment line, paramSet⟩ := by
  unfold readLine endsComment
  cases fullMatch regWholeComment line
  · cases fullMatch regSingleComment line
    · cases fullMatch regEndComment line
      · cases fullMatch regStartComment line <;> rfl
      · rfl
    · rfl
  · rfl

theorem not_end {line : Line} (unclosed : ¬ ∃ text, line = text ++ ['*', '/']) :
    fullMatch regEndComment line = false := by
  rw [Bool.eq_false_iff, ne_eq, end_iff]
  rintro ⟨text, same, _⟩
  exact unclosed ⟨text, same⟩

theorem not_whole {line : Line} (unclosed : ¬ ∃ text, line = text ++ ['*', '/']) :
    fullMatch regWholeComment line = false := by
  rw [Bool.eq_false_iff, ne_eq, whole_iff]
  rintro ⟨text, same⟩
  exact unclosed ⟨'/' :: '*' :: text, same⟩

theorem endsComment_false {line : Line} (unclosed : ¬ ∃ text, line = text ++ ['*', '/']) :
    endsComment line = false := by
  simp [endsComment, not_end unclosed]

theorem not_end_of_terminator {line : Line} (stops : ¬ line.all dot = true) :
    fullMatch regEndComment line = false := by
  rw [Bool.eq_false_iff, ne_eq, end_iff]
  rintro ⟨text, rfl, all⟩
  apply stops
  rw [List.all_append, List.all_eq_true.mpr all]
  decide

theorem single_eq (text : Line) :
    fullMatch regSingleComment ('/' :: '/' :: text) = text.all dot := by
  rw [singleComment_eq]
  rfl

/-- The test for a `//` line comes before the test for the end of a comment. -/
theorem endsComment_single (text : Line) : endsComment ('/' :: '/' :: text) = false := by
  rw [endsComment, single_eq]
  by_cases pass : text.all dot = true
  · simp [pass]
  · have notEnd : fullMatch regEndComment ('/' :: '/' :: text) = false :=
      not_end_of_terminator pass
    simp [notEnd]

theorem unclosed_of_absent {line : Line} (absent : ¬ ['*', '/'] <:+: line) :
    ¬ ∃ text, line = text ++ ['*', '/'] := by
  rintro ⟨text, rfl⟩
  exact absent (List.suffix_append text _).isInfix

theorem unclosed_of_last {first rest : Line} (some : rest ≠ []) (plain : ∀ c ∈ rest, c ≠ '/') :
    ¬ ∃ text, first ++ rest = text ++ ['*', '/'] := by
  rintro ⟨text, same⟩
  have last := congrArg List.getLast? same
  rw [List.getLast?_append_of_ne_nil _ some, List.getLast?_append_of_ne_nil _ (by simp)] at last
  exact plain '/' (List.mem_of_getLast? last) rfl

theorem space_ne_slash {c : Char} (blank : space c = true) : c ≠ '/' := by
  rintro rfl
  cases blank

theorem unclosed_blank {text : Line} (blank : ∀ c ∈ text, space c = true) :
    ¬ ∃ start, text = start ++ ['*', '/'] := by
  cases text with
  | nil => simp
  | cons c text =>
    have ends : ¬ ∃ start, [] ++ c :: text = start ++ ['*', '/'] :=
      unclosed_of_last (by simp) fun d member => space_ne_slash (blank d member)
    exact ends

theorem ParamLine.unclosed (line : ParamLine) : ¬ ∃ text, line.text = text ++ ['*', '/'] := by
  have split : line.text = (paramWord ++ '<' :: (line.name ++ ',' :: (line.gap ++ line.value.text))) ++
      '>' :: line.trail := by
    simp [ParamLine.text]
  rw [split]
  refine unclosed_of_last (by simp) fun c member => ?_
  rcases List.mem_cons.mp member with rfl | trail
  · decide
  · exact space_ne_slash (line.trailBlank c trail)

theorem CommentBlock.unclosed_opening (comment : CommentBlock) :
    ¬ ∃ text, comment.opening = text ++ ['*', '/'] :=
  unclosed_of_absent comment.firstOpen

/-- The closing line is itself a one-line comment or a `//` line, or has a
character that the regular expressions do not let pass. -/
def CommentBlock.closesBadly (comment : CommentBlock) : Bool :=
  ['/', '/'].isPrefixOf comment.closing ||
    (['/', '*'].isPrefixOf comment.closing && 4 ≤ comment.closing.length ||
      !comment.closing.all dot)

theorem CommentBlock.whole_closing (comment : CommentBlock) :
    fullMatch regWholeComment comment.closing =
      (['/', '*'].isPrefixOf comment.closing && 4 ≤ comment.closing.length) := by
  unfold closing
  rw [Bool.eq_iff_iff, whole_iff, Bool.and_eq_true, List.isPrefixOf_iff_prefix, decide_eq_true_iff]
  constructor
  · rintro ⟨text, same⟩
    rw [same]
    exact ⟨⟨text ++ ['*', '/'], rfl⟩, by simp⟩
  · rintro ⟨⟨rest, same⟩, long⟩
    match shape : comment.last with
    | [] => simp [shape] at long
    | [_] => simp [shape] at long
    | c :: d :: text =>
      rw [shape] at same
      simp only [List.cons_append, List.nil_append, List.cons.injEq] at same
      obtain ⟨rfl, rfl, _⟩ := same
      exact ⟨text, rfl⟩

theorem CommentBlock.end_closing (comment : CommentBlock) :
    fullMatch regEndComment comment.closing = comment.closing.all dot := by
  unfold closing
  rw [Bool.eq_iff_iff, end_iff, List.all_append, Bool.and_eq_true]
  constructor
  · rintro ⟨text, same, all⟩
    rw [List.append_cancel_right same]
    exact ⟨List.all_eq_true.mpr all, by decide⟩
  · rintro ⟨all, _⟩
    exact ⟨_, rfl, List.all_eq_true.mp all⟩

theorem CommentBlock.endsComment_closing (comment : CommentBlock) :
    endsComment comment.closing = !comment.closesBadly := by
  rw [endsComment, comment.whole_closing, singleComment_eq, comment.end_closing, closesBadly]
  cases ['/', '/'].isPrefixOf comment.closing <;>
    cases (['/', '*'].isPrefixOf comment.closing && decide (4 ≤ comment.closing.length)) <;>
      cases comment.closing.all dot <;> rfl

/-- Whether the next lines are taken for a comment. -/
def FileItem.lostAfter (lost : Bool) : FileItem → Bool
  | .block comment => comment.closesBadly
  | _ => lost

theorem middle_lines {middle : List Line} (unclosed : ∀ line ∈ middle, ¬ ['*', '/'] <:+: line)
    (paramSet : TreeMap String Nat) :
    middle.foldlM readLine ⟨true, paramSet⟩ = .ok ⟨true, paramSet⟩ := by
  induction middle with
  | nil => rfl
  | cons line rest ih =>
    obtain ⟨here, later⟩ := List.forall_mem_cons.mp unclosed
    rw [List.foldlM_cons, readLine_inside, endsComment_false (unclosed_of_absent here), Loops.ok_bind]
    exact ih later

theorem CommentBlock.after_opening (comment : CommentBlock) (paramSet : TreeMap String Nat) :
    (comment.middle ++ [comment.closing]).foldlM readLine ⟨true, paramSet⟩ =
      .ok ⟨comment.closesBadly, paramSet⟩ := by
  rw [List.foldlM_append, middle_lines comment.middleOpen, Loops.ok_bind, List.foldlM_cons,
    readLine_inside, comment.endsComment_closing, Bool.not_not]
  rfl

theorem foldlM_single (state : ParamState) (line : Line) :
    [line].foldlM readLine state = readLine state line := by
  rw [List.foldlM_cons]
  cases readLine state line <;> rfl

theorem FileItem.lines_lost (item : FileItem) (paramSet : TreeMap String Nat) :
    item.lines.foldlM readLine ⟨true, paramSet⟩ = .ok ⟨item.lostAfter true, paramSet⟩ := by
  cases item with
  | blank text blank =>
    rw [lines, foldlM_single, readLine_inside, endsComment_false (unclosed_blank blank)]
    rfl
  | single text =>
    rw [lines, foldlM_single, readLine_inside, endsComment_single]
    rfl
  | param line =>
    rw [lines, foldlM_single, readLine_inside, endsComment_false line.unclosed]
    rfl
  | whole text =>
    have skipped : endsComment ('/' :: '*' :: (text ++ ['*', '/'])) = false := by
      rw [endsComment, whole_iff.mpr ⟨text, rfl⟩]
      rfl
    rw [lines, foldlM_single, readLine_inside, skipped]
    rfl
  | block comment =>
    rw [lines, List.foldlM_cons, readLine_inside,
      endsComment_false comment.unclosed_opening, Loops.ok_bind]
    exact comment.after_opening paramSet

/-- The regular expression that has to recognise the item lets its line pass. -/
def FileItem.readable : FileItem → Bool
  | .single text => text.all dot
  | .param line => line.text.all dot
  | .block comment => comment.opening.all dot
  | _ => true

/-- What the item leaves in `param_set`. -/
def FileItem.store (paramSet : TreeMap String Nat) : FileItem → TreeMap String Nat
  | .param line => paramSet.insert (String.ofList line.name) (toUint32 line.value.value)
  | _ => paramSet

/-- A line that no test for a comment recognises. -/
theorem readLine_plain {line : Line} (notWhole : fullMatch regWholeComment line = false)
    (notSingle : fullMatch regSingleComment line = false)
    (notEnd : fullMatch regEndComment line = false)
    (notStart : fullMatch regStartComment line = false) (paramSet : TreeMap String Nat) :
    readLine ⟨false, paramSet⟩ line =
      if fullMatch regEmptyLine line then .ok ⟨false, paramSet⟩
      else if fullMatch regParamStart line then do
        let value ← stoi (firstGroup regCaptureValue line)
        pure ⟨false, paramSet.insert (String.ofList (firstGroup regCaptureParam line))
          (toUint32 value)⟩
      else .error (.assertion "ERROR: PARAM FILE WRONG FORMAT") := by
  unfold readLine
  rw [notWhole, notSingle, notEnd, notStart]
  rfl

theorem single_of_ne {c : Char} (other : c ≠ '/') (text : Line) :
    fullMatch regSingleComment (c :: text) = false := by
  rw [singleComment_eq]
  simp [other.symm]

theorem start_of_ne {c : Char} (other : c ≠ '/') (text : Line) :
    fullMatch regStartComment (c :: text) = false := by
  rw [startComment_eq]
  simp [other.symm]

theorem readLine_blank {text : Line} (blank : ∀ c ∈ text, space c = true)
    (paramSet : TreeMap String Nat) : readLine ⟨false, paramSet⟩ text = .ok ⟨false, paramSet⟩ := by
  cases text with
  | nil => rfl
  | cons c text =>
    have other := space_ne_slash (blank c (by simp))
    rw [readLine_plain (not_whole (unclosed_blank blank)) (single_of_ne other text)
      (not_end (unclosed_blank blank)) (start_of_ne other text), if_pos (empty_iff.mpr blank)]

theorem readLine_single (state : ParamState) {text : Line} (pass : text.all dot = true) :
    readLine state ('/' :: '/' :: text) = .ok state := by
  unfold readLine
  rw [single_eq, if_pos pass]
  split <;> rfl

theorem readLine_whole (state : ParamState) (text : Line) :
    readLine state ('/' :: '*' :: (text ++ ['*', '/'])) = .ok state := by
  unfold readLine
  rw [if_pos (whole_iff.mpr ⟨text, rfl⟩)]

theorem CommentBlock.single_opening (comment : CommentBlock) :
    fullMatch regSingleComment comment.opening = false := by
  rw [singleComment_eq]
  rfl

theorem CommentBlock.start_opening (comment : CommentBlock) :
    fullMatch regStartComment comment.opening = comment.opening.all dot := by
  rw [startComment_eq]
  rfl

theorem CommentBlock.readLine_opening (comment : CommentBlock)
    (pass : comment.opening.all dot = true) (paramSet : TreeMap String Nat) :
    readLine ⟨false, paramSet⟩ comment.opening = .ok ⟨true, paramSet⟩ := by
  unfold readLine
  rw [not_whole comment.unclosed_opening, comment.single_opening, not_end comment.unclosed_opening,
    comment.start_opening, pass]
  rfl

/-- The test on the word `param` fails for a line that starts with a slash. -/
theorem readLine_slash {text : Line} (notWhole : fullMatch regWholeComment ('/' :: text) = false)
    (notSingle : fullMatch regSingleComment ('/' :: text) = false)
    (notEnd : fullMatch regEndComment ('/' :: text) = false)
    (notStart : fullMatch regStartComment ('/' :: text) = false) (paramSet : TreeMap String Nat) :
    readLine ⟨false, paramSet⟩ ('/' :: text) =
      .error (.assertion "ERROR: PARAM FILE WRONG FORMAT") := by
  have notEmpty : fullMatch regEmptyLine ('/' :: text) = false := by
    rw [Bool.eq_false_iff, ne_eq, empty_iff]
    intro blank
    exact space_ne_slash (blank '/' (by simp)) rfl
  have notParam : fullMatch regParamStart ('/' :: text) = false := by
    rw [paramStart_eq]
    rfl
  rw [readLine_plain notWhole notSingle notEnd notStart, notEmpty, notParam]
  rfl

theorem readLine_single_terminator {text : Line} (stops : ¬ text.all dot = true)
    (paramSet : TreeMap String Nat) : readLine ⟨false, paramSet⟩ ('/' :: '/' :: text) =
      .error (.assertion "ERROR: PARAM FILE WRONG FORMAT") := by
  apply readLine_slash
  · rw [Bool.eq_false_iff, ne_eq, whole_iff]
    rintro ⟨start, same⟩
    cases same
  · rw [single_eq]
    exact Bool.eq_false_iff.mpr stops
  · have stopsLine : ¬ ('/' :: '/' :: text).all dot = true := stops
    exact not_end_of_terminator stopsLine
  · rw [startComment_eq]
    rfl

theorem CommentBlock.readLine_opening_terminator (comment : CommentBlock)
    (stops : ¬ comment.opening.all dot = true) (paramSet : TreeMap String Nat) :
    readLine ⟨false, paramSet⟩ comment.opening =
      .error (.assertion "ERROR: PARAM FILE WRONG FORMAT") := by
  refine readLine_slash (not_whole comment.unclosed_opening) comment.single_opening
    (not_end comment.unclosed_opening) ?_ paramSet
  exact comment.start_opening.trans (Bool.eq_false_iff.mpr stops)

theorem space_of_isDigit {c : Char} (digit : c.isDigit = true) : ¬ space c = true := by
  simp only [Char.isDigit, Bool.and_eq_true, decide_eq_true_eq] at digit
  have low : 48 ≤ c.toNat := digit.1
  simp only [space, Bool.or_eq_true, beq_iff_eq, Bool.and_eq_true, decide_eq_true_eq]
  rintro (rfl | ⟨_, high⟩)
  · exact absurd low (by decide)
  · omega

theorem readSign_text (sign : Sign) {c : Char} (digit : c.isDigit = true) (rest : Line) :
    readSign (sign.text ++ c :: rest) = (sign, c :: rest) := by
  cases sign with
  | none =>
    have noMinus : c ≠ '-' := by
      rintro rfl
      cases digit
    have noPlus : c ≠ '+' := by
      rintro rfl
      cases digit
    unfold Sign.text readSign
    simp only [List.nil_append]
    split
    · rename_i same
      exact absurd (List.cons.inj same).1 noMinus
    · rename_i same
      exact absurd (List.cons.inj same).1 noPlus
    · rfl
  | plus => rfl
  | minus => rfl

/-- No value starts with a blank. -/
theorem Decimal.text_start (value : Decimal) {c : Char} {rest : Line}
    (starts : value.text = c :: rest) : ¬ space c = true := by
  obtain ⟨sign, digits, some, decimal, fits⟩ := value
  obtain ⟨d, later, rfl⟩ := List.exists_cons_of_ne_nil some
  cases sign with
  | none =>
    obtain ⟨rfl, _⟩ := List.cons.inj starts
    exact space_of_isDigit (decimal _ (by simp))
  | plus =>
    obtain ⟨rfl, _⟩ := List.cons.inj starts
    decide
  | minus =>
    obtain ⟨rfl, _⟩ := List.cons.inj starts
    decide

theorem Decimal.text_ne_nil (value : Decimal) : value.text ≠ [] := by
  intro empty
  exact value.some (List.append_eq_nil_iff.mp empty).2

/-- `stoi` gives back the number that is written. -/
theorem stoi_text (value : Decimal) : stoi value.text = .ok value.value := by
  obtain ⟨c, rest, starts⟩ := List.exists_cons_of_ne_nil value.text_ne_nil
  have trimmed : value.text.dropWhile space = value.text := by
    rw [starts, List.dropWhile_cons_of_neg (value.text_start starts)]
  have signed : readSign value.text = (value.sign, value.digits) := by
    obtain ⟨d, later, shape⟩ := List.exists_cons_of_ne_nil value.some
    rw [Decimal.text, shape]
    exact readSign_text value.sign (value.decimal d (by simp [shape])) later
  have taken : value.digits.takeWhile (·.isDigit) = value.digits :=
    List.takeWhile_eq_self_iff.mpr value.decimal
  have full : value.digits.isEmpty = false := by simpa using value.some
  unfold stoi
  rw [trimmed, signed]
  simp only [taken, full, Bool.false_eq_true, ↓reduceIte, if_pos value.fits]
  rfl

/-- The characters of a value are none of the delimiters. -/
theorem Decimal.not_mem_text (value : Decimal) {d : Char} (noDigit : ¬ d.isDigit = true)
    (noSign : d ≠ '+' ∧ d ≠ '-') : d ∉ value.text := by
  intro member
  rcases List.mem_append.mp member with sign | digit
  · cases shape : value.sign with
    | none => simp [shape, Sign.text] at sign
    | plus => exact noSign.1 (by simpa [shape, Sign.text] using sign)
    | minus => exact noSign.2 (by simpa [shape, Sign.text] using sign)
  · exact noDigit (value.decimal d digit)

theorem space_ne {c d : Char} (blank : space c = true) (other : ¬ space d = true) : c ≠ d := by
  rintro rfl
  exact other blank

namespace ParamLine

variable (line : ParamLine)

/-- What stands after the comma. -/
def afterComma : Line := line.gap ++ (line.value.text ++ '>' :: line.trail)

theorem comma_not_mem : ',' ∉ line.afterComma := by
  intro member
  rcases List.mem_append.mp member with gap | member
  · exact space_ne (line.gapBlank _ gap) (by decide) rfl
  rcases List.mem_append.mp member with value | member
  · exact line.value.not_mem_text (by decide) (by decide) value
  rcases List.mem_cons.mp member with wrong | trail
  · exact absurd wrong (by decide)
  · exact space_ne (line.trailBlank _ trail) (by decide) rfl

variable (pass : line.text.all dot = true)
include pass

theorem dot_of_mem {c : Char} (member : c ∈ line.text) : dot c = true :=
  List.all_eq_true.mp pass c member

theorem capture_name : firstGroup regCaptureParam line.text = line.name := by
  have named : startMatch (⟨dot, .greedy, true⟩ :: literal [',']) (line.name ++ ',' :: line.afterComma) =
      some [line.name] :=
    startMatch_greedy (fun c member => line.dot_of_mem pass (by simp [text, member]))
      (startMatch_nil _) line.comma_not_mem
  have found : startMatch regCaptureParam line.text = some [line.name] :=
    startMatch_reluctant (fun c member => line.dot_of_mem pass (by simp [text, member])) named
      (by decide)
  rw [firstGroup, found]
  rfl

theorem capture_value : firstGroup regCaptureValue line.text = line.value.text := by
  have valued : startMatch (⟨dot, .greedy, true⟩ :: literal ['>'])
      (line.value.text ++ '>' :: line.trail) = some [line.value.text] :=
    startMatch_greedy (fun c member => line.dot_of_mem pass (by simp [text, member]))
      (startMatch_nil _) (fun trail => space_ne (line.trailBlank _ trail) (by decide) rfl)
  have trimmed : startMatch (⟨space, .greedy, false⟩ :: ⟨dot, .greedy, true⟩ :: literal ['>'])
      line.afterComma = some [line.value.text] := by
    refine startMatch_longest line.gapBlank valued ?_
    intro c later starts
    obtain ⟨d, rest, shape⟩ := List.exists_cons_of_ne_nil line.value.text_ne_nil
    rw [shape] at starts
    rw [← (List.cons.inj starts).1]
    exact line.value.text_start shape
  have skipped : startMatch (dots :: (literal [','] ++
      ⟨space, .greedy, false⟩ :: ⟨dot, .greedy, true⟩ :: literal ['>']))
      (line.name ++ ',' :: line.afterComma) = some [line.value.text] :=
    startMatch_greedy (fun c member => line.dot_of_mem pass (by simp [text, member])) trimmed
      line.comma_not_mem
  have found : startMatch regCaptureValue line.text = some [line.value.text] :=
    startMatch_reluctant (fun c member => line.dot_of_mem pass (by simp [text, member])) skipped
      (by decide)
  rw [firstGroup, found]
  rfl

end ParamLine

theorem ParamLine.readLine_text (line : ParamLine) (paramSet : TreeMap String Nat) :
    readLine ⟨false, paramSet⟩ line.text =
      if line.text.all dot then
        .ok ⟨false, paramSet.insert (String.ofList line.name) (toUint32 line.value.value)⟩
      else .error (.assertion "ERROR: PARAM FILE WRONG FORMAT") := by
  have notEmpty : fullMatch regEmptyLine line.text = false := by
    rw [Bool.eq_false_iff, ne_eq, empty_iff]
    intro blank
    exact space_ne (blank 'p' (by simp [text, paramWord])) (by decide) rfl
  have isParam : fullMatch regParamStart line.text = line.text.all dot := by
    rw [paramStart_eq]
    rfl
  rw [readLine_plain (not_whole line.unclosed) (single_of_ne (by decide) _) (not_end line.unclosed)
    (start_of_ne (by decide) _), notEmpty, isParam, if_neg Bool.false_ne_true]
  by_cases pass : line.text.all dot = true
  · rw [if_pos pass, if_pos pass, line.capture_value pass, line.capture_name pass, stoi_text]
    rfl
  · rw [if_neg pass, if_neg pass]

theorem FileItem.lines_readable {item : FileItem} (readable : item.readable = true)
    (paramSet : TreeMap String Nat) : item.lines.foldlM readLine ⟨false, paramSet⟩ =
      .ok ⟨item.lostAfter false, item.store paramSet⟩ := by
  cases item with
  | blank text blank =>
    rw [lines, foldlM_single, readLine_blank blank]
    rfl
  | single text =>
    rw [lines, foldlM_single, readLine_single _ readable]
    rfl
  | param line =>
    have pass : line.text.all dot = true := readable
    rw [lines, foldlM_single, line.readLine_text, if_pos pass]
    rfl
  | whole text =>
    rw [lines, foldlM_single, readLine_whole]
    rfl
  | block comment =>
    rw [lines, List.foldlM_cons, comment.readLine_opening readable, Loops.ok_bind]
    exact comment.after_opening paramSet

theorem FileItem.lines_unreadable {item : FileItem} (unreadable : ¬ item.readable = true)
    (paramSet : TreeMap String Nat) : item.lines.foldlM readLine ⟨false, paramSet⟩ =
      .error (.assertion "ERROR: PARAM FILE WRONG FORMAT") := by
  cases item with
  | blank text blank => exact absurd rfl unreadable
  | single text => rw [lines, foldlM_single, readLine_single_terminator unreadable]
  | param line =>
    have stops : ¬ line.text.all dot = true := unreadable
    rw [lines, foldlM_single, line.readLine_text, if_neg stops]
  | whole text => exact absurd rfl unreadable
  | block comment =>
    rw [lines, List.foldlM_cons, comment.readLine_opening_terminator unreadable]
    rfl

/-- The items that are not swallowed: those before the first block that closes
badly, and those after the next block that closes well. -/
def unswallowed : Bool → List FileItem → List FileItem
  | _, [] => []
  | true, item :: rest => unswallowed (item.lostAfter true) rest
  | false, item :: rest => item :: unswallowed (item.lostAfter false) rest

theorem readLines_ok (items : List FileItem) : ∀ (lost : Bool) (paramSet : TreeMap String Nat),
    (∀ item ∈ unswallowed lost items, item.readable = true) →
      ∃ lost', (items.flatMap FileItem.lines).foldlM readLine ⟨lost, paramSet⟩ =
        .ok ⟨lost', (unswallowed lost items).foldl FileItem.store paramSet⟩ := by
  induction items with
  | nil => exact fun lost _ _ => ⟨lost, rfl⟩
  | cons item rest ih =>
    intro lost paramSet readable
    rw [List.flatMap_cons, List.foldlM_append]
    cases lost with
    | true =>
      rw [item.lines_lost, Loops.ok_bind]
      exact ih _ paramSet readable
    | false =>
      obtain ⟨here, later⟩ := List.forall_mem_cons.mp readable
      rw [FileItem.lines_readable here, Loops.ok_bind]
      exact ih _ _ later

theorem readLines_error (items : List FileItem) : ∀ (lost : Bool) (paramSet : TreeMap String Nat),
    ¬ (∀ item ∈ unswallowed lost items, item.readable = true) →
      (items.flatMap FileItem.lines).foldlM readLine ⟨lost, paramSet⟩ =
        .error (.assertion "ERROR: PARAM FILE WRONG FORMAT") := by
  induction items with
  | nil => exact fun lost _ unreadable => absurd (by cases lost <;> simp [unswallowed]) unreadable
  | cons item rest ih =>
    intro lost paramSet unreadable
    rw [List.flatMap_cons, List.foldlM_append]
    cases lost with
    | true =>
      rw [item.lines_lost, Loops.ok_bind]
      exact ih _ paramSet unreadable
    | false =>
      by_cases here : item.readable = true
      · rw [FileItem.lines_readable here, Loops.ok_bind]
        refine ih _ _ fun later => unreadable ?_
        exact List.forall_mem_cons.mpr ⟨here, later⟩
      · rw [FileItem.lines_unreadable here]
        rfl

theorem FileItem.store_getElem? (item : FileItem) (paramSet : TreeMap String Nat) (name : String) :
    (item.store paramSet)[name]? = (item.value? name).or paramSet[name]? := by
  cases item with
  | param line =>
    unfold store value?
    rw [TreeMap.getElem?_insert]
    by_cases same : String.ofList line.name = name
    · simp [same]
    · simp [same]
  | _ => rfl

theorem lastValue_append_single (items : List FileItem) (item : FileItem) (name : String) :
    lastValue (items ++ [item]) name = (item.value? name).or (lastValue items name) := by
  unfold lastValue
  cases value : item.value? name with
  | none => simp [List.filterMap_append, value]
  | some v => simp [List.filterMap_append, value]

theorem store_getElem? (items : List FileItem) (paramSet : TreeMap String Nat) (name : String) :
    (items.foldl FileItem.store paramSet)[name]? = (lastValue items name).or paramSet[name]? := by
  induction items using List.reverseRecOn with
  | nil => rfl
  | append_singleton items item ih =>
    rw [List.foldl_append, lastValue_append_single, Option.or_assoc, ← ih]
    exact item.store_getElem? _ name

/-- `readParam` gives every name the value of its last param line exactly if it can
read the lines that are not swallowed and each name whose last param line is
swallowed has the same value in its last one that is not. -/
theorem readParam_stores_iff (file : List FileItem) :
    (∃ paramSet, readParam ∅ (file.flatMap FileItem.lines) = .ok paramSet ∧
        ∀ name, paramSet[name]? = lastValue file name) ↔
      (∀ item ∈ unswallowed false file, item.readable = true) ∧
        ∀ name, lastValue (unswallowed false file) name = lastValue file name := by
  unfold readParam
  by_cases readable : ∀ item ∈ unswallowed false file, item.readable = true
  · obtain ⟨lost, returned⟩ := readLines_ok file false ∅ readable
    have stored : ∀ name, ((unswallowed false file).foldl FileItem.store ∅)[name]? =
        lastValue (unswallowed false file) name := by
      intro name
      rw [store_getElem?, TreeMap.getElem?_emptyc, Option.or_none]
    rw [returned]
    constructor
    · rintro ⟨_, made, holds⟩
      cases made
      exact ⟨readable, fun name => (stored name).symm.trans (holds name)⟩
    · rintro ⟨_, same⟩
      exact ⟨_, rfl, fun name => (stored name).trans (same name)⟩
  · rw [readLines_error file false ∅ readable]
    constructor
    · rintro ⟨_, absurd, _⟩
      cases absurd
    · exact fun both => absurd both.1 readable

/-- A block whose last line starts with `//`, and a param line. -/
def badlyClosed : List FileItem :=
  [.block ⟨[' ', 'a'], [], ['/', '/', ' ', 'b', ' '], by decide, by simp, by decide⟩,
    .param ⟨['X'], [' '], ⟨.none, ['1'], by decide, by simp, by decide⟩, [], by simp, by simp [space],
      by simp⟩]

theorem badlyClosed_swallows :
    badlyClosed.flatMap FileItem.lines = ["/* a", "// b */", "param<X, 1>"].map String.toList ∧
      ¬ ∃ paramSet, readParam ∅ (badlyClosed.flatMap FileItem.lines) = .ok paramSet ∧
        ∀ name, paramSet[name]? = lastValue badlyClosed name := by
  refine ⟨by decide +kernel, ?_⟩
  rintro ⟨paramSet, returned, holds⟩
  have nothing : Loops.returns (fun paramSet : TreeMap String Nat => paramSet["X"]?.isNone)
      (readParam ∅ (badlyClosed.flatMap FileItem.lines)) = true := by
    decide +kernel
  have written : (lastValue badlyClosed "X").isNone = false := by decide +kernel
  rw [returned] at nothing
  rw [← holds "X"] at written
  exact absurd nothing (by simp [Loops.returns, written])

end ChainSaw
