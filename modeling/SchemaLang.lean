import SchemaLang.Main
import SchemaLang.Bootstrap
import SchemaLang.Model.Decode
import SchemaLang.Model.Reach
import SchemaLang.Query.Decode
import SchemaLang.Query.Encode
import SchemaLang.Validate.Model
import SchemaLang.Proofs.Validate.Conformance
import SchemaLang.Proofs.Validate.QueryRoundTrip
import SchemaLang.Proofs.Validate.Safety
import SchemaLang.Proofs.Validate.Model
import SchemaLang.Proofs.Compile.Introductions
import SchemaLang.Proofs.Query.Addresses
import SchemaLang.Proofs.Query.Inverse
import SchemaLang.Proofs.Bootstrap.Shape
import SchemaLang.Proofs.Validate.Restriction
import SchemaLang.Proofs.Compile.Independence
import SchemaLang.Proofs.Compile.Splitting
import SchemaLang.Proofs.Model.Text
import SchemaLang.Proofs.Compile.BuiltinNames
import SchemaLang.Proofs.Validate.Substitution
import SchemaLang.Proofs.Validate.Shape
import SchemaLang.Proofs.Inheritance.Tree
import SchemaLang.Proofs.Lint.Aliases
import SchemaLang.Proofs.Lint.Restriction
import SchemaLang.Proofs.Validate.Struct
import SchemaLang.Proofs.Validate.Paths
import SchemaLang.Proofs.Validate.Termination
import SchemaLang.Proofs.Compile.UrlLines
import SchemaLang.Proofs.Validate.Clauses
import SchemaLang.Proofs.Compile.Frame
import SchemaLang.Proofs.Compile.ActionUrls
import SchemaLang.Proofs.Compile.Documentation
import SchemaLang.Proofs.Compile.Expressions
import SchemaLang.Proofs.Query.Canonical
import SchemaLang.Proofs.Query.Independence
import SchemaLang.Proofs.Compile.Positions
import SchemaLang.Proofs.Load
import SchemaLang.Proofs.Validate.Relocation
import SchemaLang.Proofs.Compile.Joining
import SchemaLang.Proofs.Compile.Opened
import SchemaLang.Proofs.Validate.IntegerBounds
