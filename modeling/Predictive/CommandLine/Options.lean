import Predictive.Layout.Format

set_option autoImplicit false

namespace Predictive.CommandLine

/-- A pass that is applied to the grammar. -/
inductive Action where
  | eliminateLeftRecursion
  | leftFactor
  | convert
deriving DecidableEq

/-- A result that is written out. -/
inductive Output where
  | productions
  | firstFollow
  | table
deriving DecidableEq

structure Options where
  actions : List Action
  outputs : List Output
  format : Option Format
  tokens : Option String
  file : Option String
deriving DecidableEq

def Options.initial : Options := ⟨[], [], .none, .none, .none⟩

/-- What the arguments ask for. -/
inductive Request where
  | version
  | run (options : Options)
deriving DecidableEq

/-- What can be wrong with the arguments. -/
inductive UsageError where
  | unknownArgument (argument : String)
  | missingValue (option : String)
  | invalidValue (option value : String)
  | repeatedOption (option : String)
deriving DecidableEq

def UsageError.message : UsageError → String
  | unknownArgument argument => "unexpected argument '" ++ argument ++ "'"
  | missingValue option => "a value is required for '" ++ option ++ "'"
  | invalidValue option value => "invalid value '" ++ value ++ "' for '" ++ option ++ "'"
  | repeatedOption option => "'" ++ option ++ "' cannot be used multiple times"

/-- The options that take a value. -/
inductive Key where
  | action
  | output
  | format
  | tokens
deriving DecidableEq

namespace Key

def long : Key → String
  | action => "action"
  | output => "output"
  | format => "format"
  | tokens => "tokens"

def short : Key → Char
  | action => 'a'
  | output => 'o'
  | format => 'f'
  | tokens => 't'

def all : List Key := [action, output, format, tokens]

/-- The option as usage errors name it. -/
def label (key : Key) : String := "--" ++ key.long

end Key

def Action.ofWord? : String → Option Action
  | "elf" => some .eliminateLeftRecursion
  | "lf" => some .leftFactor
  | "convert" => some .convert
  | _ => none

def Output.ofWord? : String → Option Output
  | "prod" => some .productions
  | "ff" => some .firstFollow
  | "ll1" => some .table
  | _ => none

def formatOfWord? : String → Option Format
  | "plain" => some .plain
  | "latex" => some .latex
  | "json" => some .json
  | _ => none

namespace Options

/-- Records the value of an option. Passes and outputs add up, the others are given once. -/
def set (options : Options) (key : Key) (value : String) : Except UsageError Options :=
  let invalid := UsageError.invalidValue key.label value
  match key with
  | .action =>
    match Action.ofWord? value with
    | some action => .ok { options with actions := options.actions ++ [action] }
    | none => .error invalid
  | .output =>
    match Output.ofWord? value with
    | some output => .ok { options with outputs := options.outputs ++ [output] }
    | none => .error invalid
  | .format =>
    match formatOfWord? value with
    | some format =>
      if options.format.isSome then .error (.repeatedOption key.label)
      else .ok { options with format := some format }
    | none => .error invalid
  | .tokens =>
    if options.tokens.isSome then .error (.repeatedOption key.label)
    else .ok { options with tokens := some value }

/-- Records the grammar file. -/
def setFile (options : Options) (path : String) : Except UsageError Options :=
  if path.isEmpty || options.file.isSome then .error (.unknownArgument path)
  else .ok { options with file := some path }

end Options

/-- How an argument reads by itself. -/
inductive Argument where
  | version
  | separator
  | positional (text : String)
  | option (key : Key) (attached : Option String)
  | unknown (text : String)
deriving DecidableEq

/-- Splits a text at its first equals sign. -/
def splitEquals (text : List Char) : List Char × Option (List Char) :=
  match text.dropWhile fun c => !decide (c = '=') with
  | _ :: value => (text.takeWhile fun c => !decide (c = '='), some value)
  | [] => (text, none)

/-- An argument that begins with two dashes, which are left out of `text`. -/
def Argument.ofLong (text : List Char) : Argument :=
  let (name, value) := splitEquals text
  match Key.all.find? fun key => decide (key.long = String.ofList name), value with
  | some key, value => .option key (value.map String.ofList)
  | none, none => if String.ofList name = "version" then .version else .unknown (String.ofList text)
  | none, some _ => .unknown (String.ofList text)

/-- An argument that begins with one dash and goes on with `letter`. -/
def Argument.ofShort (letter : Char) (rest : List Char) : Argument :=
  match Key.all.find? fun key => decide (key.short = letter) with
  | some key =>
    match rest with
    | [] => .option key none
    | '=' :: value => .option key (some (String.ofList value))
    | value => .option key (some (String.ofList value))
  | none => if letter = 'V' then .version else .unknown (String.ofList (letter :: rest))

def Argument.read (text : String) : Argument :=
  match text.toList with
  | ['-', '-'] => .separator
  | '-' :: '-' :: rest => .ofLong rest
  | '-' :: letter :: rest => .ofShort letter rest
  | _ => .positional text

/-- Reads the arguments behind the separator, all of which are positional. -/
def readPositional (options : Options) : List String → Except UsageError Request
  | [] => .ok (.run options)
  | path :: rest => do
    let options ← options.setFile path
    readPositional options rest

/-- Reads the arguments after those that gave `options`. -/
def readArguments (options : Options) : List String → Except UsageError Request
  | [] => .ok (.run options)
  | text :: rest =>
    match Argument.read text with
    | .version => .ok .version
    | .separator => readPositional options rest
    | .unknown _ => .error (.unknownArgument text)
    | .positional path => do
      let options ← options.setFile path
      readArguments options rest
    | .option key (some value) => do
      let options ← options.set key value
      readArguments options rest
    | .option key none =>
      match rest with
      | [] => .error (.missingValue key.label)
      | value :: rest =>
        match Argument.read value with
        | .positional value => do
          let options ← options.set key value
          readArguments options rest
        | _ => .error (.missingValue key.label)

/-- What a list of arguments asks for. -/
def request (arguments : List String) : Except UsageError Request :=
  readArguments .initial arguments

end Predictive.CommandLine
