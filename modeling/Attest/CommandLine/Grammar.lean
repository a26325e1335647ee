import Attest.Number.Numeral
import Attest.Text.Quoted

/-! Grammars of command lines: options by name, with unambiguous beginnings of long names, and arguments
by position. -/

namespace Attest.CommandLine

/-- What an option or argument holds. -/
inductive Kind where
  | flag
  /-- Ends the reading and shows help. -/
  | help
  | text
  | choice (values : List String)
  | number (values : List Int)

def Kind.takesValue : Kind → Bool
  | flag | help => false
  | _ => true

/-- An option; its first name identifies it. -/
structure Spec where
  names : List String
  kind : Kind
  required : Bool := false

/-- How messages name an option. -/
def Spec.label (s : Spec) : String := "/".intercalate s.names

def Spec.key (s : Spec) : String := s.names.head?.getD ""

/-- An argument by position. -/
structure Position where
  name : String
  /-- What the argument may be, if not anything. -/
  values : Option (List String) := none
  /-- Whether all that follows belongs to it. -/
  takesRest : Bool := false

structure Grammar where
  options : List Spec
  positions : List Position

/-- What an option or argument was given. -/
inductive Value where
  | flag
  | text (s : String)
  | number (i : Int)
  | words (ws : List String)
  deriving DecidableEq, Repr

/-- Why reading ends early. -/
inductive Stop where
  | help
  | fault (message : String)
  deriving DecidableEq, Repr

def argumentFault (label message : String) : Stop := .fault s!"argument {label}: {message}"

/-- What is not among the choices. -/
def badChoice (label shown : String) (choices : List String) : Stop :=
  argumentFault label (s!"invalid choice: {shown} (choose from " ++ ", ".intercalate choices ++ ")")

/-- The word that separates options from what only looks like them. It never counts as a value. -/
def separator : String := "--"

/-- The value that a text gives to an option. A separator leaves it without any word. -/
def Spec.read (s : Spec) (given : String) : Except Stop Value :=
  if given = separator then .ok (.words []) else
  match s.kind with
  | .flag | .help => .ok .flag
  | .text => .ok (.text given)
  | .choice values =>
      if values.contains given then .ok (.text given)
      else .error (badChoice s.label (Text.quoted given) (values.map Text.quoted))
  | .number values =>
      match Numeral.int? given with
      | none => .error (argumentFault s.label s!"invalid int value: {Text.quoted given}")
      | some i =>
          if values.contains i then .ok (.number i)
          else .error (badChoice s.label (toString i) (values.map toString))

/-! ### Words -/

/-- What a word gives an option besides its name: nothing, what follows the equals sign after a long
name, or what follows a letter, with or without such a sign. -/
inductive Given where
  | nothing
  | assigned (value : String)
  | joined (rest : String)

/-- What a word of a command line is. -/
inductive Role where
  | plain
  /-- The first pair of dashes that stands alone; after it all words are plain. -/
  | separator
  /-- An option, none if there is no such option. -/
  | option (spec : Option Spec) (given : Given)

structure Word where
  text : String
  role : Role

def Word.isOption (w : Word) : Bool :=
  match w.role with
  | .option .. => true
  | _ => false

def Word.isSeparator (w : Word) : Bool :=
  match w.role with
  | .separator => true
  | _ => false

def startsWith (start s : String) : Bool := start.toList.isPrefixOf s.toList

/-- The two sides of the first equals sign, if there is one. -/
def splitEquals (s : String) : Option (String × String) :=
  let cs := s.toList
  match cs.dropWhile (· ≠ '=') with
  | [] => none
  | _ :: rest => some (String.ofList (cs.takeWhile (· ≠ '=')), String.ofList rest)

def Grammar.named? (g : Grammar) (name : String) : Option Spec :=
  g.options.find? fun s => s.names.contains name

/-- All names with their options. -/
def Grammar.names (g : Grammar) : List (String × Spec) :=
  g.options.flatMap fun s => s.names.map fun n => (n, s)

/-- Options that a word with two dashes may stand for: those whose names it begins. -/
def longMatches (g : Grammar) (word : String) : List (Spec × String × Given) :=
  let (start, given) := match splitEquals word with
    | some (name, value) => (name, Given.assigned value)
    | none => (word, Given.nothing)
  (g.names.filter fun n => startsWith start n.1).map fun n => (n.2, n.1, given)

/-- Options that a word with one dash may stand for: the one of its first letter, with the rest of
the word joined to it, and those whose names it begins. -/
def shortMatches (g : Grammar) (word : String) : List (Spec × String × Given) :=
  let letter := String.ofList (word.toList.take 2)
  g.names.filterMap fun n =>
    if n.1 = letter then some (n.2, n.1, .joined (String.ofList (word.toList.drop 2)))
    else if startsWith word n.1 then some (n.2, n.1, .nothing)
    else none

def isLong (name : String) : Bool := startsWith "--" name

/-- Whether a word is a dash and a decimal number, possibly with a fraction and a line feed. -/
def isNegativeNumber (word : String) : Bool :=
  let isDigit (c : Char) : Bool := (Text.decimalValue? c).isSome
  match word.toList with
  | '-' :: cs =>
      let cs := if cs.getLast? = some '\n' then cs.dropLast else cs
      let rest := cs.dropWhile isDigit
      match rest with
      | [] => !cs.isEmpty
      | '.' :: fraction => !fraction.isEmpty && fraction.all isDigit
      | _ => false
  | _ => false

/-- Tells what a word before any separator is. -/
def roleOf (g : Grammar) (word : String) : Except Stop Role :=
  match word.toList with
  | '-' :: _ :: _ =>
      match g.named? word with
      | some s => .ok (.option (some s) .nothing)
      | none =>
          let assigned? := (splitEquals word).bind fun (name, value) =>
            (g.named? name).map fun s => (s, value)
          match assigned? with
          | some (s, value) =>
              .ok (.option (some s) (if isLong word then .assigned value else .joined value))
          | none =>
              match if isLong word then longMatches g word else shortMatches g word with
              | [(s, _, given)] => .ok (.option (some s) given)
              | [] =>
                  if isNegativeNumber word || word.contains ' ' then .ok .plain
                  else .ok (.option none .nothing)
              | many =>
                  let names := ", ".intercalate (many.map (·.2.1))
                  .error (.fault s!"ambiguous option: {word} could match {names}")
  | _ => .ok .plain

/-- Tells what each word is. -/
def roles (g : Grammar) : List String → Except Stop (List Word)
  | [] => .ok []
  | word :: rest =>
      if word = separator then .ok (⟨word, .separator⟩ :: rest.map (⟨·, .plain⟩))
      else do
        let role ← roleOf g word
        return ⟨word, role⟩ :: (← roles g rest)

/-! ### Reading -/

/-- What has been read. -/
structure Reading where
  values : List (String × Value) := []
  extras : List String := []
  positions : List Position

namespace Reading

def give (r : Reading) (key : String) (v : Value) : Reading :=
  { r with values := r.values ++ [(key, v)] }

def leave (r : Reading) (words : List String) : Reading := { r with extras := r.extras ++ words }

/-- Gives words to a position. Separators do not count, except before all that follows. -/
def givePosition (r : Reading) (p : Position) (words : List String) : Except Stop Reading := do
  let words := if p.takesRest then words else words.erase separator
  let first := words.head?.getD ""
  if let some values := p.values then
    if !values.contains first then
      throw (badChoice p.name (Text.quoted first) (values.map Text.quoted))
  return r.give p.name (if p.takesRest then .words words else .text first)

/-- How many words at the front belong to a position, none if it cannot begin here. -/
def span (p : Position) (words : List Word) : Nat :=
  let before := words.takeWhile Word.isSeparator
  match words.dropWhile Word.isSeparator with
  | [] => 0
  | w :: rest =>
      if w.isOption then 0
      else if p.takesRest then words.length
      else before.length + 1 + (rest.takeWhile Word.isSeparator).length

/-- Gives the words at the front to the positions that are open. -/
def takePositions (r : Reading) (words : List Word) : List Position → Except Stop (Reading × List Word)
  | [] => .ok ({ r with positions := [] }, words)
  | p :: ps => do
      let count := span p words
      if count = 0 then return ({ r with positions := p :: ps }, words)
      else
        let r ← r.givePosition p ((words.take count).map (·.text))
        takePositions r (words.drop count) ps

/-- A value that an option has no use for. -/
def ignored (s : Spec) (given : String) : Stop :=
  argumentFault s.label ("ignored explicit argument " ++ Text.quoted given)

/-- Takes a flag; help ends the reading. -/
def takeFlag (r : Reading) (s : Spec) : Except Stop Reading :=
  if s.kind matches .help then .error .help else .ok (r.give s.key .flag)

/-- Takes a flag and the letters joined to its own, which have to be flags too. -/
def takeLetters (g : Grammar) (r : Reading) (s : Spec) : List Char → Except Stop Reading
  | [] => takeFlag r s
  | c :: cs =>
      match g.named? (String.ofList ['-', c]) with
      | none => .error (ignored s (String.ofList (c :: cs)))
      | some t => do
          let rest ← takeLetters g (r.give s.key .flag) t cs
          if s.kind matches .help then .error .help else return rest

/-- Reads an option and the words after it that belong to it. -/
def takeOption (g : Grammar) (r : Reading) (s : Spec) (given : Given) (rest : List Word) :
    Except Stop (Reading × List Word) := do
  if s.kind.takesValue then
    match given with
    | .assigned value | .joined value => return (r.give s.key (← s.read value), rest)
    | .nothing =>
        match rest with
        | ⟨value, .plain⟩ :: rest => return (r.give s.key (← s.read value), rest)
        | _ => throw (argumentFault s.label "expected one argument")
  else
    match given with
    | .assigned value => throw (ignored s value)
    | .joined "" => throw (ignored s "")
    | .joined letters => return (← takeLetters g r s letters.toList, rest)
    | .nothing => return (← takeFlag r s, rest)

/-- Reads words. Plain words that no position wants are left over. -/
def takeWords (g : Grammar) : (fuel : Nat) → Reading → List Word → Except Stop Reading
  | 0, r, words => .ok (r.leave (words.map (·.text)))
  | fuel + 1, r, words =>
      match words with
      | ⟨text, .option spec? given⟩ :: rest =>
          match spec? with
          | none => takeWords g fuel (r.leave [text]) rest
          | some s => do
              let (r, rest) ← takeOption g r s given rest
              takeWords g fuel r rest
      | _ => do
          let (r, rest) ← r.takePositions words r.positions
          if rest.any Word.isOption then
            if rest.length < words.length then takeWords g fuel r rest
            else
              let skipped := rest.takeWhile fun w => !w.isOption
              takeWords g fuel (r.leave (skipped.map (·.text))) (rest.drop skipped.length)
          else return r.leave (rest.map (·.text))

/-- Names of what has to be given and was not. -/
def missing (g : Grammar) (r : Reading) : List String :=
  ((g.options.filter fun s => s.required && (r.values.lookup s.key).isNone).map Spec.label) ++
    r.positions.map (·.name)

end Reading

/-- Reads a command line. What nothing wants is left over; what is required must be there. -/
def Grammar.read (g : Grammar) (words : List String) : Except Stop Reading := do
  let words ← roles g words
  let r ← Reading.takeWords g (words.length + 1) { positions := g.positions } words
  match Reading.missing g r with
  | [] => return r
  | names => throw (.fault ("the following arguments are required: " ++ ", ".intercalate names))

end Attest.CommandLine
