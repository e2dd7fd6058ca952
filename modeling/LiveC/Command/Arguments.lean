import LiveC.Decimal.Reading
import LiveC.Value

/-!
Command lines: what is to be done with a source file, and the values that are passed to a
function.
-/

namespace LiveC

/-- A command on a source file. Macros are given as `NAME` or `NAME=BODY`. -/
inductive Command where
  /-- Compiles the file and calls a function of it. -/
  | run (file entry : String) (args defines : List String) (listing : Bool)
  /-- Compiles the file into an object file. -/
  | compile (file output : String) (defines : List String)
  /-- Compiles the file for its diagnostics. -/
  | check (file : String) (defines : List String)
  deriving DecidableEq, Repr

namespace Command

/-- What the words behind the name of a command hold. -/
structure Options where
  files : List String := []
  defines : List String := []
  entries : List String := []
  args : List String := []
  outputs : List String := []
  listing : Bool := false
  deriving DecidableEq, Repr

/-- The options that take a value. -/
inductive ValueOption where
  | define | entry | arg | output
  deriving DecidableEq, Repr

namespace ValueOption

def ofName? : String → Option ValueOption
  | "-D" => some define
  | "--entry" => some entry
  | "--arg" => some arg
  | "-o" => some output
  | _ => none

/-- An option with its value in the same word: behind `=`, or directly behind a short name. -/
def ofWord? (word : String) : Option (ValueOption × String) :=
  match word.toList with
  | '-' :: '-' :: cs =>
    let name := cs.takeWhile (· != '=')
    match cs.dropWhile (· != '=') with
    | _ :: value => (ofName? ("--" ++ String.ofList name)).map fun o => (o, String.ofList value)
    | [] => none
  | '-' :: c :: value =>
    let value := if value.head? = some '=' then value.tail else value
    if value.isEmpty then none
    else (ofName? (String.ofList ['-', c])).map fun o => (o, String.ofList value)
  | _ => none

end ValueOption

namespace Options

/-- Adds a value of an option behind those before. -/
def add (o : Options) (option : ValueOption) (value : String) : Options :=
  match option with
  | .define => { o with defines := o.defines ++ [value] }
  | .entry => { o with entries := o.entries ++ [value] }
  | .arg => { o with args := o.args ++ [value] }
  | .output => { o with outputs := o.outputs ++ [value] }

/-- Whether a word can only be an option. -/
def isOption (word : String) : Bool := word.startsWith "-" && word != "-"

/-- Reads words; only arguments of the called function may look like options. Behind `--` all
words are files. -/
def read? (o : Options) : List String → Option Options
  | [] => some o
  | "--" :: files => some { o with files := o.files ++ files }
  | "--disasm" :: rest => if o.listing then none else read? { o with listing := true } rest
  | word :: rest =>
    match ValueOption.ofName? word, rest with
    | some option, value :: rest =>
      if option ≠ .arg && isOption value then none else read? (o.add option value) rest
    | some _, [] => none
    | none, rest =>
      match ValueOption.ofWord? word with
      | some (option, value) => read? (o.add option value) rest
      | none => if isOption word then none else read? { o with files := o.files ++ [word] } rest

end Options

/-- The function that is called unless another is named. -/
def defaultEntry : String := "main"

/-- The command that words describe. Options of other commands are refused. -/
def ofWords? : List String → Option Command
  | [] => none
  | name :: words => do
    let o ← Options.read? {} words
    match name, o with
    | "run", ⟨[file], defines, [], args, [], listing⟩ =>
      return run file defaultEntry args defines listing
    | "run", ⟨[file], defines, [entry], args, [], listing⟩ =>
      return run file entry args defines listing
    | "compile", ⟨[file], defines, [], [], [output], false⟩ => return compile file output defines
    | "check", ⟨[file], defines, [], [], [], false⟩ => return check file defines
    | _, _ => none

/-- The source file. -/
def file : Command → String
  | run file .. | compile file .. | check file .. => file

def defines : Command → List String
  | run _ _ _ defines _ | compile _ _ defines | check _ defines => defines

end Command

/-- A macro given as `NAME=BODY`, or as a name that stands for one. -/
def macroDefinition (text : String) : String × String :=
  let cs := text.toList
  match cs.dropWhile (· != '=') with
  | _ :: body => (String.ofList (cs.takeWhile (· != '=')), String.ofList body)
  | [] => (text, "1")

/-! ### Values -/

/-- The value of a digit in a base up to sixteen. -/
def digitValue? (base : Nat) (c : Char) : Option Nat :=
  let value? :=
    if '0' ≤ c ∧ c ≤ '9' then some (c.toNat - '0'.toNat)
    else if 'a' ≤ c ∧ c ≤ 'f' then some (c.toNat - 'a'.toNat + 10)
    else if 'A' ≤ c ∧ c ≤ 'F' then some (c.toNat - 'A'.toNat + 10)
    else none
  value?.filter (· < base)

/-- The number that digits denote. -/
def digitsValue? (base : Nat) (cs : List Char) : Option Nat :=
  if cs.isEmpty then none
  else cs.foldlM (fun n c => (digitValue? base c).map (base * n + ·)) 0

/-- The signed word that digits with an optional sign denote, if it is in range. -/
def signedWord? (base : Nat) (cs : List Char) : Option Word :=
  let number? : Option Int := match cs with
    | '-' :: ds => (digitsValue? base ds).map fun n => -(n : Int)
    | '+' :: ds => (digitsValue? base ds).map fun n => (n : Int)
    | ds => (digitsValue? base ds).map fun n => (n : Int)
  (number?.filter fun n => Word.least ≤ n ∧ n ≤ Word.greatest).map (BitVec.ofInt 64)

/-- The value of a text: a signed word in decimal or behind `0x` in hexadecimal, or else a
double. -/
def Value.ofText? (text : String) : Option Value :=
  let cs := text.toList
  let hexadecimal : Option Word := match cs with
    | '0' :: 'x' :: ds => signedWord? 16 ds
    | _ => none
  match signedWord? 10 cs, hexadecimal with
  | some v, _ | none, some v => some (.int v)
  | none, none => (Decimal.signed? cs).map .float

end LiveC
