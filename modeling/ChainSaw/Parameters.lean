import ChainSaw.Basic
import ChainSaw.Lib.Patterns

set_option autoImplicit false

namespace ChainSaw

open Std (TreeMap)
open Patterns

/-- A line of a parameter file, as `getline` returns it. -/
abbrev Line := List Char

/-- The ways in which `readParam` does not come back: its assertion and the
exceptions of `stoi`. -/
inductive ParamFault where
  | assertion (text : String)
  | invalidArgument
  | outOfRange
deriving DecidableEq, Repr

/-- `.` in a regular expression: no line terminator. -/
def dot (c : Char) : Bool := c != '\n' && c != '\r'

/-- `\s` in a regular expression, and `isspace`. -/
def space (c : Char) : Bool := c == ' ' || (9 ≤ c.toNat && c.toNat ≤ 13)

def paramWord : Line := ['p', 'a', 'r', 'a', 'm']

/-- `.*` -/
def dots : Piece Char := ⟨dot, .greedy, false⟩

def regStartComment : Pattern Char := literal ['/', '*'] ++ [dots]
def regEndComment : Pattern Char := dots :: literal ['*', '/']
def regWholeComment : Pattern Char :=
  literal ['/', '*'] ++
    ⟨fun c => dot c || (c == '\n' || c == '\r'), .reluctant, false⟩ :: literal ['*', '/']
def regSingleComment : Pattern Char := literal ['/', '/'] ++ [dots]
def regParamStart : Pattern Char := literal paramWord ++ [dots]
def regEmptyLine : Pattern Char := [⟨space, .greedy, false⟩]
def regCaptureParam : Pattern Char :=
  ⟨dot, .reluctant, false⟩ :: (literal ['<'] ++ ⟨dot, .greedy, true⟩ :: literal [','])
def regCaptureValue : Pattern Char :=
  ⟨dot, .reluctant, false⟩ :: (literal ['<'] ++ dots :: (literal [','] ++
    ⟨space, .greedy, false⟩ :: ⟨dot, .greedy, true⟩ :: literal ['>']))

/-- The first group of a search; it is empty after a search that failed. -/
def firstGroup (pattern : Pattern Char) (line : Line) : Line :=
  ((startMatch pattern line).bind (·.head?)).getD []

inductive Sign where
  | none
  | plus
  | minus
deriving DecidableEq, Repr

def Sign.apply (sign : Sign) (n : Nat) : Int :=
  match sign with
  | .minus => -(n : Int)
  | _ => n

def number (digits : Line) : Nat := digits.foldl (fun n c => 10 * n + (c.toNat - 48)) 0

/-- The optional sign in front of a number. -/
def readSign : Line → Sign × Line
  | '-' :: rest => (.minus, rest)
  | '+' :: rest => (.plus, rest)
  | text => (.none, text)

/-- `stoi`. -/
def stoi (text : Line) : Except ParamFault Int :=
  let (sign, rest) := readSign (text.dropWhile space)
  let digits := rest.takeWhile (·.isDigit)
  if digits.isEmpty then .error .invalidArgument
  else if -2 ^ 31 ≤ sign.apply (number digits) ∧ sign.apply (number digits) < 2 ^ 31 then
    .ok (sign.apply (number digits))
  else .error .outOfRange

/-- The conversion of an `int` to `uint32_t`. -/
def toUint32 (value : Int) : Nat := (value % 2 ^ 32).toNat

/-- `read_comment` and `param_set`. -/
structure ParamState where
  readComment : Bool
  paramSet : TreeMap String Nat

/-- One turn of the loop of `readParam`. -/
def readLine (state : ParamState) (line : Line) : Except ParamFault ParamState :=
  if fullMatch regWholeComment line then .ok state
  else if fullMatch regSingleComment line then .ok state
  else if fullMatch regEndComment line then .ok { state with readComment := false }
  else if fullMatch regStartComment line then .ok { state with readComment := true }
  else if state.readComment then .ok state
  else if fullMatch regEmptyLine line then .ok state
  else if fullMatch regParamStart line then do
    let value ← stoi (firstGroup regCaptureValue line)
    pure { state with paramSet :=
      state.paramSet.insert (String.ofList (firstGroup regCaptureParam line)) (toUint32 value) }
  else .error (.assertion "ERROR: PARAM FILE WRONG FORMAT")

/-- `readParam`, on the lines of a file that could be opened. -/
def readParam (paramSet : TreeMap String Nat) (lines : List Line) :
    Except ParamFault (TreeMap String Nat) := do
  let state ← lines.foldlM readLine ⟨false, paramSet⟩
  pure state.paramSet

end ChainSaw
