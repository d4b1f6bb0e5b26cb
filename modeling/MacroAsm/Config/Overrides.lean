import MacroAsm.Config.Mapping
import MacroAsm.Options

set_option autoImplicit false

/-! # Configuration files

A configuration file sets some of the options by their names. Every name must be known and stand only
once, and every value must be of the kind that its option takes; a null leaves the option unset. -/

namespace MacroAsm.Config

/-- Why a file is no configuration. -/
inductive ConfigError where
  | mapping (e : MappingError)
  | unknownKey (key : String)
  | repeatedKey (key : String)
  | badValue (key : String)
  deriving DecidableEq, Repr

/-- The wording of an error. -/
def ConfigError.message : ConfigError → String
  | .mapping .malformed => "the text is not a mapping of names to values"
  | .mapping .severalDocuments => "the text holds more than one document"
  | .unknownKey key => s!"unknown field `{key}`"
  | .repeatedKey key => s!"duplicate field `{key}`"
  | .badValue key => s!"invalid value for `{key}`"

/-! ## Values -/

/-- The tag of nulls. -/
def nullTag : List Char := "tag:yaml.org,2002:null".toList

/-- The tag of integers. -/
def intTag : List Char := "tag:yaml.org,2002:int".toList

/-- Whether a text is the name of null. -/
def isNullName (cs : List Char) : Bool :=
  ["null", "Null", "NULL", "~"].contains (String.ofList cs)

/-- Whether a node stands for no value, or else has one. What is tagged as a null must be the name of
    null. -/
def isNull? (n : Node) : Option Bool :=
  if n.scalar.style != .plain then some false
  else match n.tag with
    | none => some (n.scalar.text.isEmpty || isNullName n.scalar.text)
    | some t =>
      if t != nullTag then some false
      else if isNullName n.scalar.text then some true
      else none

/-- The greatest size: what 64 bits can hold. -/
def maxSize : Nat := 18446744073709551615

/-- The size that digits of a base stand for, if there are digits only. -/
def digitsValue? (radix : Radix) (digits : List Char) : Option Nat :=
  (Numeral.readDigits maxSize radix digits).toOption

/-- Whether a decimal has a zero in front that it does not need. -/
def hasLeadingZero : List Char → Bool
  | '0' :: _ :: _ => true
  | _ => false

/-- Read the magnitude of a size. Here a base may be named only in front of digits, and zeros in
    front of a decimal make it no number. -/
def magnitude? (cs : List Char) : Option Nat :=
  match Radix.split cs with
  | (.decimal, digits) => if hasLeadingZero digits then none else digitsValue? .decimal digits
  | (radix, digits) => digitsValue? radix digits

/-- Whether a node may be an integer: it is plain, or a block that is tagged as one. -/
def mayBeInteger (n : Node) : Bool :=
  n.scalar.style == .plain || (n.scalar.style == .literal && n.tag == some intTag)

/-- Read a size: a magnitude behind an optional plus. -/
def size? (n : Node) : Option Nat :=
  if !mayBeInteger n then none
  else
    let digits := match n.scalar.text with
      | '+' :: cs => cs
      | cs => cs
    magnitude? digits

/-- Read a level: its name, or a tag of that name in front of a null. -/
def level? (n : Node) : Option Level :=
  match n.tag with
  | some ('!' :: name) =>
    if n.scalar.style == .plain && (n.scalar.text.isEmpty || isNullName n.scalar.text) then
      Level.ofKey? (String.ofList name)
    else none
  | _ => Level.ofKey? (String.ofList n.scalar.text)

/-! ## Settings -/

/-- Set the option of a name. -/
def set (o : Overrides) (key : String) (n : Node) : Except ConfigError Overrides :=
  let valued {α : Type} (read : Node → Option α) (f : Option α → Overrides) :
      Except ConfigError Overrides :=
    match isNull? n with
    | none => .error (.badValue key)
    | some true => .ok (f none)
    | some false => match read n with
      | some v => .ok (f (some v))
      | none => .error (.badValue key)
  let text (n : Node) : Option String := some (String.ofList n.scalar.text)
  match key with
  | "target" => valued text fun v => { o with target := v }
  | "memory_size" => valued size? fun v => { o with memorySize := v }
  | "memory_blocks" => valued size? fun v => { o with memoryBlocks := v }
  | "stack_size" => valued size? fun v => { o with stackSize := v }
  | "register_count" => valued size? fun v => { o with registerCount := v }
  | "exit_level" => valued level? fun v => { o with exitLevel := v }
  | "out_file" => valued text fun v => { o with output := v }
  | "template_dir" => valued text fun v => { o with templateDirectory := v }
  | _ => .error (.unknownKey key)

/-- Read entries, given the keys before them. -/
def readEntries (seen : List String) (o : Overrides) : List Entry → Except ConfigError Overrides
  | [] => .ok o
  | (key, value) :: rest =>
    let name := String.ofList key.scalar.text
    if seen.contains name then .error (.repeatedKey name)
    else match set o name value with
      | .error e => .error e
      | .ok o => readEntries (name :: seen) o rest

/-- Read a configuration. -/
def parse (text : String) : Except ConfigError Overrides :=
  match readMapping text with
  | .error e => .error (.mapping e)
  | .ok entries => readEntries [] .none entries

end MacroAsm.Config

namespace MacroAsm.Overrides

/-- Read the text of a configuration file. -/
def ofText (name text : String) : Except Failure Overrides :=
  if (Text.trim text.toList).isEmpty then .ok .none
  else match Config.parse text with
    | .ok o => .ok o
    | .error e => .error (.badConfig name e.message)

/-- Read a configuration file. -/
def load (t : FileTree) (path : String) : Except Failure Overrides :=
  match t.read path with
  | .error e => .error (.cannotOpen path e)
  | .ok text => ofText path text

end MacroAsm.Overrides
