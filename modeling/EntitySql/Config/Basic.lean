import EntitySql.Config.Document
import EntitySql.Dialect

/-!
The configuration of a session and its JSON form. A document names the settings that it changes;
the others keep their defaults.
-/

namespace EntitySql

structure Config where
  dialect : Dialect := .generic
  /-- Whether statements carry a log rendering and are handed to the logger. -/
  logStatements : Bool := true
  /-- Whether mutations by criteria may touch every row. -/
  allowMissingWhere : Bool := false
  deriving DecidableEq, Repr, Inhabited

inductive ConfigError
  | parse
  deriving DecidableEq, Repr

def ConfigError.message : ConfigError → String
  | .parse => "invalid configuration"

/-- A dialect is written as its name, or as an object with the name as its only key. -/
def Dialect.ofDocument? : Document → Option Dialect
  | .string items => do ofName? (← Document.text? items)
  | .object [(items, .null)] => do ofName? (← Document.text? items)
  | _ => none

def Document.bool? : Document → Option Bool
  | .bool b => some b
  | _ => none

namespace Config

structure Given where
  dialect : Option Dialect := none
  logStatements : Option Bool := none
  allowMissingWhere : Option Bool := none

def Given.config (given : Given) : Config :=
  { dialect := given.dialect.getD .generic
    logStatements := given.logStatements.getD true
    allowMissingWhere := given.allowMissingWhere.getD false }

/-- Takes in one member of an object. A setting may be given once; names that are no setting
are passed over. -/
def Given.member? (given : Given) (items : List StringItem) (value : Document) :
    Option Given := do
  match ← Document.text? items with
  | "dialect" =>
    if given.dialect.isSome then none
    else return { given with dialect := some (← Dialect.ofDocument? value) }
  | "log_statements" =>
    if given.logStatements.isSome then none
    else return { given with logStatements := some (← value.bool?) }
  | "allow_missing_where" =>
    if given.allowMissingWhere.isSome then none
    else return { given with allowMissingWhere := some (← value.bool?) }
  | _ => return given

/-- The settings in the order of their declaration, as far as an array goes. -/
def ofElements? : List Document → Option Config
  | [] => some {}
  | [dialect] => do return { dialect := ← Dialect.ofDocument? dialect }
  | [dialect, log] => do
    return { dialect := ← Dialect.ofDocument? dialect, logStatements := ← log.bool? }
  | [dialect, log, allow] => do
    return {
      dialect := ← Dialect.ofDocument? dialect
      logStatements := ← log.bool?
      allowMissingWhere := ← allow.bool? }
  | _ => none

def ofDocument? : Document → Option Config
  | .object members =>
    (members.foldlM (fun (given : Given) member => given.member? member.1 member.2) {}).map
      Given.config
  | .array elements => ofElements? elements
  | _ => none

def ofJson (json : String) : Except ConfigError Config :=
  match Document.parse? json >>= ofDocument? with
  | some config => .ok config
  | none => .error .parse

def toJson (config : Config) : String :=
  "\x7b\"dialect\":\"" ++ config.dialect.name ++ "\",\"log_statements\":" ++
    toString config.logStatements ++ ",\"allow_missing_where\":" ++
    toString config.allowMissingWhere ++ "\x7d"

end Config
end EntitySql
