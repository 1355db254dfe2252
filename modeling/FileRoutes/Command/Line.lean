import FileRoutes.Command.Arguments

/-!
# Command lines

A command line is a list of words.  A word that begins with a hyphen names options; one that follows
an option in need of a value is its value; every other word is an operand, first the source, then
the target.  Behind two hyphens there are operands only.

## When values are checked

A value is not checked when it is read, but when the next option or operand begins, or at the end.
Up to then it is pending.  So an unknown word is reported before a bad value in front of it, while
a request for help is not.
-/

namespace FileRoutes

/-- Why a command line gives no arguments, if it is at fault. -/
inductive UsageFault where
  /-- A word is not understood. -/
  | unknownWord
  /-- An operand is missing. -/
  | missingOperand
  /-- A value is missing or not among those that are allowed. -/
  | badValue
  /-- An option is given twice. -/
  | repeatedOption
  /-- An option without a value is given one. -/
  | needlessValue
  deriving DecidableEq

/-- What a command line asks for instead of a migration. -/
inductive Exit where
  /-- An explanation of all options, at length or in short. -/
  | help (atLength : Bool)
  /-- The version of the command. -/
  | version
  /-- Nothing: it is at fault. -/
  | fault (f : UsageFault)
  deriving DecidableEq

namespace CommandLine

/-- The options that need a value. -/
inductive Setting where
  | order
  | pathStyle
  | conventions
  | dumpRoutes
  deriving DecidableEq

/-- The options that stand for themselves. -/
inductive Flag where
  | skipCopy
  | dryRun
  | verbose
  | help
  | version
  deriving DecidableEq

/-- An option. -/
inductive Switch where
  | setting (s : Setting)
  | flag (f : Flag)
  deriving DecidableEq

/-- The options and their long names. -/
def longNames : List (Text × Switch) :=
  [("order", .setting .order), ("path-style", .setting .pathStyle),
    ("conventions", .setting .conventions), ("dump-routes", .setting .dumpRoutes),
    ("skip-copy", .flag .skipCopy), ("dry-run", .flag .dryRun), ("verbose", .flag .verbose),
    ("help", .flag .help), ("version", .flag .version)]

/-- The options that have a short name. -/
def shortNames : List (Char × Switch) :=
  [('c', .setting .conventions), ('v', .flag .verbose), ('h', .flag .help), ('V', .flag .version)]

/-- What a value is for. -/
inductive Slot where
  | setting (s : Setting)
  | source
  | target
  deriving DecidableEq

/-- What has been read. -/
structure Draft where
  source? : Option Text
  target? : Option Text
  order? : Option EntryOrder
  style? : Option PathStyle
  conventions? : Option Text
  dump? : Option Text
  skipsCopy : Bool
  isDryRun : Bool
  isVerbose : Bool
  /-- What has not been checked yet: its slot, and its value unless that is still to come. -/
  pending? : Option (Slot × Option Text)
  /-- How many operands were read. -/
  operands : Nat
  /-- Two hyphens were read. -/
  operandsOnly : Bool

namespace Draft

/-- Nothing has been read. -/
def empty : Draft :=
  ⟨none, none, none, none, none, none, false, false, false, none, 0, false⟩

/-- A slot was given a value already. -/
def has (d : Draft) : Slot → Bool
  | .setting .order => d.order?.isSome
  | .setting .pathStyle => d.style?.isSome
  | .setting .conventions => d.conventions?.isSome
  | .setting .dumpRoutes => d.dump?.isSome
  | .source => d.source?.isSome
  | .target => d.target?.isSome

/-- A path, which must not be empty. -/
def path? (t : Text) : Option Text := if t = [] then none else some t

/-- The order with a name. -/
def orderNamed? (t : Text) : Option EntryOrder :=
  [EntryOrder.byName, .asEnumerated].find? (·.name = t)

/-- The style with a name. -/
def styleNamed? (t : Text) : Option PathStyle :=
  [PathStyle.relative, .absolute].find? (·.name = t)

/-- Gives a slot its value; none if the value is not allowed. -/
def assign? (d : Draft) (slot : Slot) (t : Text) : Option Draft :=
  match slot with
  | .source => (path? t).map fun p => { d with source? := some p }
  | .target => (path? t).map fun p => { d with target? := some p }
  | .setting .order => (orderNamed? t).map fun o => { d with order? := some o }
  | .setting .pathStyle => (styleNamed? t).map fun s => { d with style? := some s }
  | .setting .conventions => (path? t).map fun p => { d with conventions? := some p }
  | .setting .dumpRoutes => (path? t).map fun p => { d with dump? := some p }

/-- Checks what is pending. -/
def settle (d : Draft) : Except UsageFault Draft :=
  match d.pending? with
  | none => .ok d
  | some (_, none) => .error .badValue
  | some (slot, some t) =>
    if d.has slot then .error .repeatedOption
    else match { d with pending? := none }.assign? slot t with
      | some d => .ok d
      | none => .error .badValue

/-- A slot begins whose value may be there already. -/
def await (d : Draft) (slot : Slot) (value? : Option Text) : Except UsageFault Draft :=
  d.settle.map fun d => { d with pending? := some (slot, value?) }

/-- An option with a value attached to it, which is checked at once. -/
def attach (d : Draft) (slot : Slot) (t : Text) : Except UsageFault Draft := do
  (← d.await slot (some t)).settle

/-- The flag was read already, if it is one that is kept. -/
def raised (d : Draft) : Flag → Bool
  | .skipCopy => d.skipsCopy
  | .dryRun => d.isDryRun
  | .verbose => d.isVerbose
  | .help | .version => false

/-- Reads a flag. -/
def flag (d : Draft) (atLength : Bool) (f : Flag) : Except Exit Draft := do
  let d ← d.settle.mapError .fault
  if d.raised f then .error (.fault .repeatedOption)
  else match f with
    | .skipCopy => .ok { d with skipsCopy := true }
    | .dryRun => .ok { d with isDryRun := true }
    | .verbose => .ok { d with isVerbose := true }
    | .help => .error (.help atLength)
    | .version => .error .version

/-- Reads an operand. -/
def operand (d : Draft) (t : Text) : Except Exit Draft :=
  match d.operands with
  | 0 => ((d.await .source (some t)).map fun d => { d with operands := 1 }).mapError .fault
  | 1 => ((d.await .target (some t)).map fun d => { d with operands := 2 }).mapError .fault
  | _ => .error (.fault .unknownWord)

/-- Reads a word without hyphens in front. -/
def value (d : Draft) (t : Text) : Except Exit Draft :=
  match d.pending? with
  | some (slot, none) => .ok { d with pending? := some (slot, some t) }
  | _ => d.operand t

/-- The parts of a text in front of and behind the first equals sign. -/
def splitEquals (t : Text) : Text × Option Text :=
  let name := t.takeWhile (· ≠ '=')
  match t.dropWhile (· ≠ '=') with
  | [] => (name, none)
  | _ :: rest => (name, some rest)

/-- Reads an option given by its long name, and the value attached to it if there is one. -/
def long (d : Draft) (t : Text) : Except Exit Draft :=
  let (name, value?) := splitEquals t
  match longNames.lookup name, value? with
  | none, _ => .error (.fault .unknownWord)
  | some (.setting s), some t => (d.attach (.setting s) t).mapError .fault
  | some (.setting s), none => (d.await (.setting s) none).mapError .fault
  | some (.flag _), some _ => .error (.fault .needlessValue)
  | some (.flag f), none => d.flag true f

/-- Reads options given by their short names.  The first that needs a value takes the rest of the
word. -/
def short (d : Draft) : Text → Except Exit Draft
  | [] => .ok d
  | c :: rest =>
    match shortNames.lookup c with
    | none => .error (.fault .unknownWord)
    | some (.flag f) => do short (← d.flag false f) rest
    | some (.setting s) =>
      match rest with
      | [] => (d.await (.setting s) none).mapError .fault
      | '=' :: t => (d.attach (.setting s) t).mapError .fault
      | t => (d.attach (.setting s) t).mapError .fault

/-- Reads a word. -/
def word (d : Draft) (t : Text) : Except Exit Draft :=
  if d.operandsOnly then d.operand t
  else match t with
    | ['-', '-'] => .ok { d with operandsOnly := true }
    | '-' :: '-' :: t => d.long t
    | '-' :: c :: t => d.short (c :: t)
    | t => d.value t

/-- The arguments, once all words are read.  What was not given has its default. -/
def finish (d : Draft) : Except Exit Arguments := do
  let d ← d.settle.mapError .fault
  match d.source?, d.target? with
  | some source, some target =>
    .ok {
      source
      target
      order := d.order?.getD .byName
      style := d.style?.getD .relative
      conventions? := d.conventions?
      skipsCopy := d.skipsCopy
      isDryRun := d.isDryRun
      dump? := d.dump?
      isVerbose := d.isVerbose }
  | _, _ => .error (.fault .missingOperand)

end Draft

/-- The arguments that a command line gives. -/
def read (words : List Text) : Except Exit Arguments := do
  (← words.foldlM Draft.word .empty).finish

end CommandLine

end FileRoutes
