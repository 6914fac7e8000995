import EntitySql.Statement.Draft

/-!
SQL dialects: how identifiers are quoted, how rows are limited, and how the next value of a
sequence is asked for.
-/

namespace EntitySql

inductive Dialect
  | generic
  | postgres
  | mysql
  deriving DecidableEq, Repr, Inhabited

namespace Dialect

def all : List Dialect := [generic, postgres, mysql]

def name : Dialect → String
  | generic => "generic"
  | postgres => "postgres"
  | mysql => "mysql"

def ofName? (name : String) : Option Dialect := all.find? fun dialect => dialect.name == name

@[simp] theorem ofName?_name (dialect : Dialect) : ofName? dialect.name = some dialect := by
  cases dialect <;> rfl

def identifierQuote : Dialect → Char
  | mysql => '\x60'
  | _ => '"'

theorem isQuote_identifierQuote (dialect : Dialect) :
    isQuote dialect.identifierQuote = true := by
  cases dialect <;> rfl

/-- The identifier in quotes, its own quotes doubled. -/
def quoteIdentifier (dialect : Dialect) (name : String) : String :=
  String.ofList (Quoted.enclose dialect.identifierQuote name.toList)

def enquote (dialect : Dialect) (name : String) (quoted : Bool) : String :=
  if quoted then dialect.quoteIdentifier name else name

def supportsNullsOrdering : Dialect → Bool
  | mysql => false
  | _ => true

/-- Whether a single-table UPDATE or DELETE may be ordered and limited. None may be offset. -/
def supportsMutationLimit : Dialect → Bool
  | mysql => true
  | _ => false

/-- The query for the next value of a sequence, in dialects that have sequences. The rendered
name stands as an identifier or, as an argument, inside a string literal. -/
def sequenceSql? (dialect : Dialect) (sequence : String) : Option String :=
  match dialect with
  | generic => some ("SELECT NEXT VALUE FOR " ++ sequence)
  | postgres =>
    some ("SELECT nextval(" ++ String.ofList (Quoted.enclose '\'' sequence.toList) ++ ")")
  | mysql => none

/-- A row count after a keyword. Counts are bound, not written into the text. -/
def countClause (keyword : String) : Option Nat → Draft
  | some n => .sql keyword ++ .bind (.count n)
  | none => ∅

/-- The clause that limits the rows. MySQL has no offset without a limit; the largest count it
accepts stands in for a missing one. -/
def paging (dialect : Dialect) (offset limit : Option Nat) : Draft :=
  match dialect, offset, limit with
  | mysql, some _, none =>
    .sql " LIMIT 18446744073709551615" ++ countClause " OFFSET " offset
  | _, _, _ => countClause " LIMIT " limit ++ countClause " OFFSET " offset

end Dialect
end EntitySql
