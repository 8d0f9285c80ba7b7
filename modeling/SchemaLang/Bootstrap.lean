import SchemaLang.Model.Basic

/-!
# The type model of type models

`Bootstrap.types` describes the JSON form of a type model as a type model itself.  A JSON value is
a type model when it is valid against the types `TypeModel` or `Types` of it and the linter finds
nothing in what it says.  The model is written out; `Bootstrap.source` is the schema it comes from.
-/

namespace SchemaLang.Bootstrap

/-! ## Building blocks -/

def nonEmpty : Attributes := { length := { gt := some 0 } }

def nonNegative : Attributes := { number := { gte := some 0.0 } }

def list (element : TypeRef) : TypeRef := .array element none

def required (name : String) (type : TypeRef) (doc : String) : Member :=
  { name, doc := some [doc], type }

def optional (name : String) (type : TypeRef) (doc : String) : Member :=
  { name, doc := some [doc], type, optional := true }

def bounded (attr : Attributes) (m : Member) : Member := { m with attr := some attr }

def value (name : String) (doc : String) : EnumValue := { name, doc := some [doc] }

/-! ## Definitions -/

def actionType : Definition := .struct {
  name := "Action"
  doc := some ["A JSON web service API"]
  bases := some ["UserBase"]
  members := some [
    optional "urls" (list (.user "ActionURL")) "The action's URLs",
    optional "path" (.builtin .string) "The path parameters struct type name",
    optional "query" (.builtin .string) "The query parameters struct type name",
    optional "input" (.builtin .string) "The content body struct type name",
    optional "output" (.builtin .string) "The response body struct type name",
    optional "errors" (.builtin .string) "The custom error response codes enum type name"] }

def actionURL : Definition := .struct {
  name := "ActionURL"
  doc := some ["An action URL model"]
  members := some [
    optional "method" (.builtin .string)
      "The HTTP method. If not provided, matches all HTTP methods.",
    optional "path" (.builtin .string)
      "The URL path. If not provided, uses the default URL path of \"/<actionName>\"."] }

def arrayType : Definition := .struct {
  name := "Array"
  doc := some ["An array type"]
  members := some [
    required "type" (.user "Type") "The contained type",
    optional "attr" (.user "Attributes") "The contained type's attributes"] }

def attributesType : Definition := .struct {
  name := "Attributes"
  doc := some ["A type or member's attributes"]
  members := some [
    optional "nullable" (.builtin .bool) "If true, the value may be null",
    optional "eq" (.builtin .float) "The value is equal",
    optional "lt" (.builtin .float) "The value is less than",
    optional "lte" (.builtin .float) "The value is less than or equal to",
    optional "gt" (.builtin .float) "The value is greater than",
    optional "gte" (.builtin .float) "The value is greater than or equal to",
    bounded nonNegative (optional "lenEq" (.builtin .int) "The length is equal to"),
    bounded nonNegative (optional "lenLT" (.builtin .int) "The length is less-than"),
    bounded nonNegative (optional "lenLTE" (.builtin .int) "The length is less than or equal to"),
    bounded nonNegative (optional "lenGT" (.builtin .int) "The length is greater than"),
    bounded nonNegative
      (optional "lenGTE" (.builtin .int) "The length is greater than or equal to")] }

def builtinType : Definition := .enum {
  name := "BuiltinType"
  doc := some ["The built-in types"]
  values := some [
    value "any" "Any value",
    value "bool" "A boolean value",
    value "date" "A date formatted as an ISO-8601 date string",
    value "datetime" "A date/time formatted as an ISO-8601 date/time string",
    value "float" "A floating point number",
    value "int" "An integer",
    value "object" "An object",
    value "string" "A string",
    value "uuid" "A unique identifier number formatted as a UUID string"] }

def dictType : Definition := .struct {
  name := "Dict"
  doc := some ["A dictionary type"]
  members := some [
    required "type" (.user "Type") "The contained value type",
    optional "attr" (.user "Attributes") "The contained value type's attributes",
    optional "keyType" (.user "Type") "The contained key type",
    optional "keyAttr" (.user "Attributes") "The contained key type's attributes"] }

def enumType : Definition := .struct {
  name := "Enum"
  doc := some ["An enumeration type"]
  bases := some ["UserBase"]
  members := some [
    bounded nonEmpty (optional "bases" (list (.builtin .string)) "The enum's base enumerations"),
    bounded nonEmpty (optional "values" (list (.user "EnumValue")) "The enumeration values")] }

def enumValue : Definition := .struct {
  name := "EnumValue"
  doc := some ["An enumeration type value"]
  members := some [
    required "name" (.builtin .string) "The value string",
    optional "doc" (list (.builtin .string)) "The documentation markdown text lines"] }

def structType : Definition := .struct {
  name := "Struct"
  doc := some ["A struct type"]
  bases := some ["UserBase"]
  members := some [
    bounded nonEmpty (optional "bases" (list (.builtin .string)) "The struct's base classes"),
    optional "union" (.builtin .bool)
      "If true, the struct is a union and exactly one of the optional members is present",
    bounded nonEmpty (optional "members" (list (.user "StructMember")) "The struct members")] }

def structMember : Definition := .struct {
  name := "StructMember"
  doc := some ["A struct member"]
  members := some [
    required "name" (.builtin .string) "The member name",
    optional "doc" (list (.builtin .string)) "The documentation markdown text lines",
    required "type" (.user "Type") "The member type",
    optional "attr" (.user "Attributes") "The member type attributes",
    optional "optional" (.builtin .bool) "If true, the member is optional and may not be present"] }

def typeUnion : Definition := .struct {
  name := "Type"
  doc := some ["A type"]
  union := true
  members := some [
    required "builtin" (.user "BuiltinType") "A built-in type",
    required "array" (.user "Array") "An array type",
    required "dict" (.user "Dict") "A dictionary type",
    required "user" (.builtin .string) "A user type name"] }

def typeModel : Definition := .struct {
  name := "TypeModel"
  doc := some ["The Schema Markdown type model"]
  members := some [
    required "title" (.builtin .string) "The type model's title",
    required "types" (.user "Types") "The type model"] }

def typedefType : Definition := .struct {
  name := "Typedef"
  doc := some ["A type definition"]
  bases := some ["UserBase"]
  members := some [
    required "type" (.user "Type") "The typedef's type",
    optional "attr" (.user "Attributes") "The typedef's type attributes"] }

def typesMap : Definition := .typedef {
  name := "Types"
  doc := some ["Map of user type name to user type model"]
  type := .dict (.user "UserType") none none none
  attr := some nonEmpty }

def userBase : Definition := .struct {
  name := "UserBase"
  doc := some ["User type base struct"]
  members := some [
    required "name" (.builtin .string) "The user type name",
    optional "doc" (list (.builtin .string)) "The documentation markdown text lines",
    optional "docGroup" (.builtin .string) "The documentation group name"] }

def userType : Definition := .struct {
  name := "UserType"
  doc := some ["A user type model"]
  union := true
  members := some [
    required "enum" (.user "Enum") "An enumeration type",
    required "struct" (.user "Struct") "A struct type",
    required "typedef" (.user "Typedef") "A type definition",
    required "action" (.user "Action") "A JSON web API"] }

/-! ## The model -/

def types : Types := NameMap.ofList [
  ("Action", actionType),
  ("ActionURL", actionURL),
  ("Array", arrayType),
  ("Attributes", attributesType),
  ("BuiltinType", builtinType),
  ("Dict", dictType),
  ("Enum", enumType),
  ("EnumValue", enumValue),
  ("Struct", structType),
  ("StructMember", structMember),
  ("Type", typeUnion),
  ("TypeModel", typeModel),
  ("Typedef", typedefType),
  ("Types", typesMap),
  ("UserBase", userBase),
  ("UserType", userType)]

def model : TypeModel := { title := "Schema Markdown Type Model", types }

/-! ## The schema -/

/-- The lines of the schema that defines the model, up to the end of each definition. -/
def sourceBlocks : List (List String) := [
  ["# The Schema Markdown type model",
    "struct TypeModel",
    "",
    "    # The type model's title",
    "    string title",
    "",
    "    # The type model",
    "    Types types",
    "",
    ""],
  ["# Map of user type name to user type model",
    "typedef UserType\x7blen > 0\x7d Types",
    "",
    ""],
  ["# A user type model",
    "union UserType",
    "",
    "    # An enumeration type",
    "    Enum enum",
    "",
    "    # A struct type",
    "    Struct struct",
    "",
    "    # A type definition",
    "    Typedef typedef",
    "",
    "    # A JSON web API",
    "    Action action",
    "",
    ""],
  ["# User type base struct",
    "struct UserBase",
    "",
    "    # The user type name",
    "    string name",
    "",
    "    # The documentation markdown text lines",
    "    optional string[] doc",
    "",
    "    # The documentation group name",
    "    optional string docGroup",
    "",
    ""],
  ["# An enumeration type",
    "struct Enum (UserBase)",
    "",
    "    # The enum's base enumerations",
    "    optional string[len > 0] bases",
    "",
    "    # The enumeration values",
    "    optional EnumValue[len > 0] values",
    "",
    ""],
  ["# An enumeration type value",
    "struct EnumValue",
    "",
    "    # The value string",
    "    string name",
    "",
    "    # The documentation markdown text lines",
    "    optional string[] doc",
    "",
    ""],
  ["# A struct type",
    "struct Struct (UserBase)",
    "",
    "    # The struct's base classes",
    "    optional string[len > 0] bases",
    "",
    "    # If true, the struct is a union and exactly one of the optional members is present",
    "    optional bool union",
    "",
    "    # The struct members",
    "    optional StructMember[len > 0] members",
    "",
    ""],
  ["# A struct member",
    "struct StructMember",
    "",
    "    # The member name",
    "    string name",
    "",
    "    # The documentation markdown text lines",
    "    optional string[] doc",
    "",
    "    # The member type",
    "    Type type",
    "",
    "    # The member type attributes",
    "    optional Attributes attr",
    "",
    "    # If true, the member is optional and may not be present",
    "    optional bool optional",
    "",
    ""],
  ["# A type definition",
    "struct Typedef (UserBase)",
    "",
    "    # The typedef's type",
    "    Type type",
    "",
    "    # The typedef's type attributes",
    "    optional Attributes attr",
    "",
    ""],
  ["# A JSON web service API",
    "struct Action (UserBase)",
    "",
    "    # The action's URLs",
    "    optional ActionURL[] urls",
    "",
    "    # The path parameters struct type name",
    "    optional string path",
    "",
    "    # The query parameters struct type name",
    "    optional string query",
    "",
    "    # The content body struct type name",
    "    optional string input",
    "",
    "    # The response body struct type name",
    "    optional string output",
    "",
    "    # The custom error response codes enum type name",
    "    optional string errors",
    "",
    ""],
  ["# An action URL model",
    "struct ActionURL",
    "",
    "    # The HTTP method. If not provided, matches all HTTP methods.",
    "    optional string method",
    "",
    "    # The URL path. If not provided, uses the default URL path of \"/<actionName>\".",
    "    optional string path",
    "",
    ""],
  ["# A type",
    "union Type",
    "",
    "    # A built-in type",
    "    BuiltinType builtin",
    "",
    "    # An array type",
    "    Array array",
    "",
    "    # A dictionary type",
    "    Dict dict",
    "",
    "    # A user type name",
    "    string user",
    "",
    ""],
  ["# The built-in types",
    "enum BuiltinType",
    "",
    "    # Any value",
    "    any",
    "",
    "    # A boolean value",
    "    bool",
    "",
    "    # A date formatted as an ISO-8601 date string",
    "    date",
    "",
    "    # A date/time formatted as an ISO-8601 date/time string",
    "    datetime",
    "",
    "    # A floating point number",
    "    float",
    "",
    "    # An integer",
    "    int",
    "",
    "    # An object",
    "    object",
    "",
    "    # A string",
    "    string",
    "",
    "    # A unique identifier number formatted as a UUID string",
    "    uuid",
    "",
    ""],
  ["# An array type",
    "struct Array",
    "",
    "    # The contained type",
    "    Type type",
    "",
    "    # The contained type's attributes",
    "    optional Attributes attr",
    "",
    ""],
  ["# A dictionary type",
    "struct Dict",
    "",
    "    # The contained value type",
    "    Type type",
    "",
    "    # The contained value type's attributes",
    "    optional Attributes attr",
    "",
    "    # The contained key type",
    "    optional Type keyType",
    "",
    "    # The contained key type's attributes",
    "    optional Attributes keyAttr",
    "",
    ""],
  ["# A type or member's attributes",
    "struct Attributes",
    "",
    "    # If true, the value may be null",
    "    optional bool nullable",
    "",
    "    # The value is equal",
    "    optional float eq",
    "",
    "    # The value is less than",
    "    optional float lt",
    "",
    "    # The value is less than or equal to",
    "    optional float lte",
    "",
    "    # The value is greater than",
    "    optional float gt",
    "",
    "    # The value is greater than or equal to",
    "    optional float gte",
    "",
    "    # The length is equal to",
    "    optional int(>= 0) lenEq",
    "",
    "    # The length is less-than",
    "    optional int(>= 0) lenLT",
    "",
    "    # The length is less than or equal to",
    "    optional int(>= 0) lenLTE",
    "",
    "    # The length is greater than",
    "    optional int(>= 0) lenGT",
    "",
    "    # The length is greater than or equal to",
    "    optional int(>= 0) lenGTE"]]

def source : String := String.join (sourceBlocks.flatten.map (· ++ "\n"))

end SchemaLang.Bootstrap
