import DocIndex.Document.Error
import DocIndex.Json.Printer
import DocIndex.Sql.Fragment

/-! # Errors of indexing and querying

An error is a cause; `QueryError.message` is its wording. Of all causes only failures of the database
and of the document store's backend may go away when the call is repeated.
-/

namespace DocIndex

inductive IndexConflict where
  | differentDefinition (name : String)
  | differsByCase (name existing : String)
  | secondText (existing : String)
  deriving DecidableEq, Repr

inductive SettingsFault where
  | unknownKind (text : String)
  | unknownType (text : String)
  | noFields (index : String)
  | badPath (path : String)
  | repeatedField (path : String)
  | valueSetting (key : String)
  | textSetting (key : String)
  | badTokenizer (tokenizer : String)
  | builtinInText (path : String)
  | badConfig (reason : String)
  deriving DecidableEq, Repr

inductive IndexGap where
  | noValueIndex
  | uncovered (paths : List String)
  | noTextIndex
  | unused
  deriving DecidableEq, Repr

inductive SortFault where
  | notArray
  | direction (path : String)
  | entry (value : Json)
  | badPath (path : String)
  | uncovered (paths : List String)

inductive QueryFault where
  | badPath (path : String)
  | queryNotObject
  | noSelector
  | fieldList
  | count (key : String)
  | unknownOption (key : String)
  | nestedProjection (field : String)
  | selectorNotObject (value : Json)
  | emptyOr
  | textUnderOr
  | unknownOperator (op : String)
  | selectorList (op : String)
  | textShape
  | comparison (path : String)
  | existsOperand (path : String)
  | unknownFieldOperator (op path : String)
  | notOperators (path : String)
  | notOperand (path : String)
  | nullOperand (path : String)
  | operandType (path : String)
  | listOperand (op path : String)
  | missingField (index path : String)
  /-- `condition` is the condition's outline. -/
  | rowCondition (condition path : String)
  | unboundValue (value : Json)
  | textSearch (search reason : String)

inductive SqlFault where
  | noTable (name : String)
  | tableExists (name : String)
  /-- The arguments that declare a full-text table mean nothing. -/
  | declaration (table : String)
  | incomplete
  /-- A statement, or a table, with too many parts. -/
  | tooLarge
  | corruptSettings (index : String)
  /-- A number of the catalog is none. -/
  | notInteger (index : String)
  | missingValue
  | search (reason : String)
  /-- What a full-text table keeps is damaged. -/
  | corrupt (table : String)
  /-- The rows of a full-text table cannot be read or erased. -/
  | unsupported (table : String)
  | storage (reason : String)
  deriving DecidableEq, Repr

inductive QueryError where
  | invalidIndexName (name : String)
  | indexConflict (cause : IndexConflict)
  | indexDoesNotExist (name : String)
  | textSearchUnavailable
  | invalidIndexSettings (cause : SettingsFault)
  | noSuitableIndex (cause : IndexGap)
  | invalidSort (cause : SortFault)
  | invalidQuery (cause : QueryFault)
  | encryptionKey (reason : String)
  | sql (cause : SqlFault)
  | malformedFragment (cause : FragmentMismatch)
  | store (cause : StoreError)
  /-- Other parties kept moving the checkpoint of the index that was being updated. -/
  | unsettled (index : String)

namespace IndexConflict

def message : IndexConflict → String
  | .differentDefinition n => "index '" ++ n ++ "' already exists with a different definition"
  | .differsByCase n other => "index '" ++ n ++ "' differs from existing index '" ++ other ++ "' only by case"
  | .secondText n => "text index '" ++ n ++ "' already exists"

end IndexConflict

namespace SettingsFault

def message : SettingsFault → String
  | .unknownKind t => "unknown index type '" ++ t ++ "'"
  | .unknownType t => "unknown field type '" ++ t ++ "'"
  | .noFields n => "index '" ++ n ++ "' must have at least one field"
  | .badPath p => "invalid field path '" ++ p ++ "'"
  | .repeatedField p => "field '" ++ p ++ "' is listed more than once"
  | .valueSetting k => "value indexes take no settings, got '" ++ k ++ "'"
  | .textSetting k => "unknown text index setting '" ++ k ++ "'"
  | .badTokenizer t => "invalid tokenizer '" ++ t ++ "'"
  | .builtinInText p => "text indexes cannot include '" ++ p ++ "'"
  | .badConfig reason => "invalid index manager config: " ++ reason

end SettingsFault

namespace IndexGap

def message : IndexGap → String
  | .noValueIndex => "no value index exists"
  | .uncovered ps => "no single index covers fields [" ++ ", ".intercalate ps ++ "]"
  | .noTextIndex => "$text needs a text index"
  | .unused => "query uses no index"

end IndexGap

namespace SortFault

def message : SortFault → String
  | .notArray => "sort must be an array"
  | .direction p => "direction of '" ++ p ++ "' must be \"asc\" or \"desc\""
  | .entry v => "unsupported sort entry " ++ v.text
  | .badPath p => "invalid sort field '" ++ p ++ "'"
  | .uncovered ps => "no index used by the query covers sort fields [" ++ ", ".intercalate ps ++ "]"

end SortFault

namespace QueryFault

def message : QueryFault → String
  | .badPath p => "invalid field path '" ++ p ++ "'"
  | .queryNotObject => "query must be an object"
  | .noSelector => "query needs a selector"
  | .fieldList => "fields must be an array of strings"
  | .count k => k ++ " must be a non-negative integer"
  | .unknownOption k => "unknown query option '" ++ k ++ "'"
  | .nestedProjection f => "projected field '" ++ f ++ "' must be a top-level field name"
  | .selectorNotObject v => "selector must be an object, got " ++ v.text
  | .emptyOr => "$or needs at least one selector"
  | .textUnderOr => "$text cannot be used inside $or"
  | .unknownOperator op => "unknown operator '" ++ op ++ "'"
  | .selectorList op => op ++ " takes an array of selectors"
  | .textShape => "$text takes \x7b\"$search\": \"terms\"\x7d"
  | .comparison p => "field '" ++ p ++ "' must be compared with a scalar or operators"
  | .existsOperand p => "$exists on '" ++ p ++ "' takes a boolean"
  | .unknownFieldOperator op p => "unknown operator '" ++ op ++ "' on '" ++ p ++ "'"
  | .notOperators p => "$not on '" ++ p ++ "' takes exactly one operator"
  | .notOperand p => "$not on '" ++ p ++ "' takes an operator object"
  | .nullOperand p => "cannot compare '" ++ p ++ "' with null"
  | .operandType p => "'" ++ p ++ "' can only be compared with strings, numbers and booleans"
  | .listOperand op p => op ++ " on '" ++ p ++ "' takes an array"
  | .missingField i p => "index '" ++ i ++ "' does not hold '" ++ p ++ "'"
  | .rowCondition c p => "condition " ++ c ++ " on '" ++ p ++ "' cannot be used as a row predicate"
  | .unboundValue v => "cannot bind " ++ v.text ++ " as a query value"
  | .textSearch s reason => "invalid text search '" ++ s ++ "': " ++ reason

end QueryFault

namespace SqlFault

def message : SqlFault → String
  | .noTable n => "no such table: " ++ n
  | .tableExists n => "table " ++ n ++ " already exists"
  | .declaration n => "malformed declaration of table " ++ n
  | .incomplete => "incomplete statement"
  | .tooLarge => "statement too large"
  | .corruptSettings i => "corrupt settings for index '" ++ i ++ "'"
  | .notInteger i => "index '" ++ i ++ "' has a number that is no integer"
  | .missingValue => "a column of the catalog has to have a value"
  | .search reason => reason
  | .corrupt n => "table " ++ n ++ " is malformed"
  | .unsupported n => "rows of table " ++ n ++ " are not kept"
  | .storage reason => reason

end SqlFault

namespace QueryError

def message : QueryError → String
  | .invalidIndexName n => "Invalid index name '" ++ n ++ "'"
  | .indexConflict c => "Index conflict: " ++ c.message
  | .indexDoesNotExist n => "Index '" ++ n ++ "' does not exist"
  | .textSearchUnavailable => "Text search is not available in this SQLite build"
  | .invalidIndexSettings c => "Invalid index settings: " ++ c.message
  | .noSuitableIndex c => "No suitable index: " ++ c.message
  | .invalidSort c => "Invalid sort: " ++ c.message
  | .invalidQuery c => "Invalid query: " ++ c.message
  | .encryptionKey reason => "Encryption key error: " ++ reason
  | .sql c => "SQL error: " ++ c.message
  | .malformedFragment c =>
    "Malformed SQL fragment: " ++ toString c.placeholders ++ " placeholders, " ++ toString c.values ++ " values"
  | .store c => "Datastore error: " ++ c.message
  | .unsettled n => "Index '" ++ n ++ "' was moved by others too often"

def retryable : QueryError → Bool
  | .sql _ => true
  | .store c => c.retryable
  | .unsettled _ => true
  | _ => false

end QueryError

end DocIndex
